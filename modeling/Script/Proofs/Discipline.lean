import Script.Proofs.Moments
import Script.Proofs.Results

/-!
# Disciplines of scopes

A discipline says which forests may occur, what may come after what, in which scopes programs run
and which values they hold. A licence adds which trees are evaluated where and which names are
declared there. If every operation on the scopes and on values keeps to them, every moment of an
evaluation does, also between the parts of a tree and after a fault, and with it every session.
-/
namespace Script

/-- Whatever value a computation has, `P` holds for it. -/
def Gives {α : Type} (P : α → Prop) (x : Run α) : Prop := ∀ m v n, x m = .ok v n → P v

section Gives

variable {α β : Type} {P : α → Prop} {Q : β → Prop}

theorem gives_pure {a : α} (ha : P a) : Gives P (pure a) := by
  rintro m _ n ⟨⟩
  exact ha

theorem gives_any (x : Run α) : Gives (fun _ => True) x := fun _ _ _ _ => trivial

theorem Gives.bind {x : Run α} {k : α → Run β} (hx : Gives P x) (hk : ∀ a, P a → Gives Q (k a)) :
    Gives Q (x >>= k) := by
  intro m v n h
  simp only [Bind.bind, EStateM.bind] at h
  cases hxm : x m with
  | error fault n =>
    rw [hxm] at h
    cases h
  | ok a n =>
    rw [hxm] at h
    exact hk a (hx m a n hxm) n v _ h

theorem gives_ofExcept {x : Except Fault α} (h : ∀ a, x = .ok a → P a) :
    Gives P (Run.ofExcept x) := by
  cases x with
  | ok a => exact gives_pure (h a rfl)
  | error fault => exact fun _ _ _ h => nomatch h

theorem gives_one (args : List Value) : Gives (· ∈ args) (Library.one args) := by
  cases args with
  | nil => exact fun _ _ _ h => nomatch h
  | cons v args => exact gives_pure (by simp)

/-- Something simple that is made of whatever a computation gives. -/
theorem gives_simple {args : List Value} (x : Run α) {w : α → Value} (hw : ∀ a, (w a).Simple) :
    Gives (fun v => v.Simple ∨ v ∈ args) (do return w (← x)) :=
  (gives_any x).bind fun a _ => gives_pure (.inl (hw a))

/-- A library function gives a simple value or one of its arguments. -/
theorem gives_libraryCall (f : Native) (args : List Value) :
    Gives (fun v => v.Simple ∨ v ∈ args) (Library.call f args) := by
  cases f with
  | print =>
    refine (gives_any _).bind fun _ _ => (gives_any _).bind fun _ _ => ?_
    exact gives_simple _ fun _ => .null
  | clear => exact gives_simple _ fun _ => .null
  | timestamp => exact gives_simple _ fun _ => .number _
  | rand =>
    refine (gives_any _).bind fun kind _ => (gives_any _).bind fun n _ => ?_
    split
    · exact gives_simple _ fun _ => .number _
    · exact gives_pure (.inl (.boolean _))
    · exact gives_pure (.inl (.string _))
  | number =>
    refine (gives_one args).bind fun v hv => gives_ofExcept fun w hw => ?_
    rcases Library.toNumber_result hw with h | rfl
    · exact .inl h
    · exact .inr hv
  | string => exact (gives_any _).bind fun _ _ => gives_simple _ fun _ => .string _
  | boolean => exact (gives_any _).bind fun _ _ => gives_simple _ fun _ => .boolean _
  | length => exact (gives_any _).bind fun _ _ => gives_simple _ fun _ => .number _
  | type => exact gives_simple _ fun _ => .string _
  | input =>
    refine (gives_any _).bind fun _ _ => ?_
    exact gives_simple _ fun _ => .string _

theorem gives_statementsOf (n : Node) : Gives (n = .block ·) (Evaluate.statementsOf n) := by
  unfold Evaluate.statementsOf
  split
  · exact gives_pure rfl
  · exact fun _ _ _ h => nomatch h

theorem gives_nameOf (n : Node) : Gives (Name.ofNode? n = some ·) (Evaluate.nameOf n) := by
  unfold Evaluate.nameOf
  split
  · exact gives_pure ‹_›
  · exact fun _ _ _ h => nomatch h

/-- The other unary operators give a number, a truth value or null. -/
theorem gives_unary {V : Value → Prop} (hnumber : ∀ x, V (.ofDouble x))
    (hboolean : ∀ b, V (.boolean b)) (hnull : V .null) {operator : Node}
    (h : ¬ (operator.plain = "++" ∨ operator.plain = "--")) (operand : Node) (scope : ScopeId)
    (v : Value) :
    Gives V (Evaluate.unary (fun _ _ => pure v) operator operand scope) := by
  refine (gives_any _).bind fun v _ => ?_
  split
  · exact (gives_any _).bind fun _ _ => gives_pure (hboolean _)
  · split
    · exact (gives_any _).bind fun _ _ => gives_pure (hnumber _)
    · exact gives_pure hnull
  · rw [if_neg h]
    exact fun _ _ _ h => nomatch h

end Gives

namespace Node

def Among (n block : Node) : Prop :=
  ∃ ss ns, block = .block ss ∧ Content.parts ss = .ok ns ∧ n ∈ ns

/-- A part of a tree that is evaluated in the scope of the tree itself. -/
inductive Part : Node → Node → Prop
  | declared (name isConst) {value} (h : value ≠ .null) : Part (.varDecl name value isConst) value
  | assigned (name value) : Part (.assign name value) value
  | operand (operator e) : Part (.unaryOp operator e) e
  | left (operator a b) : Part (.binaryOp operator a b) a
  | right (operator a b) : Part (.binaryOp operator a b) b
  | branching (test thenBlock elseBlock) : Part (.ifStmt test thenBlock elseBlock) test
  | looping (test body) : Part (.whileStmt test body) test
  | argument (name) {args ns n} (h : Content.parts args = .ok ns) (hn : n ∈ ns) :
      Part (.call name args) n
  | returned {value} (h : value ≠ .null) : Part (.returnStmt value) value
  | item {elems ns n} (h : Content.parts elems = .ok ns) (hn : n ∈ ns) :
      Part (.arrayLiteral elems) n
  | target (a i) : Part (.index a i) a
  | position (a i) : Part (.index a i) i

/-- A part of a tree that is evaluated in a scope of its own. -/
inductive Inner : Node → Node → Prop
  | statement {ss ns n} (h : Content.parts ss = .ok ns) (hn : n ∈ ns) : Inner (.block ss) n
  | thenBlock (test elseBlock) {block n} (h : n.Among block) :
      Inner (.ifStmt test block elseBlock) n
  | elseBlock (test thenBlock) {block n} (h : n.Among block) :
      Inner (.ifStmt test thenBlock block) n
  | whileBody (test) {block n} (h : n.Among block) : Inner (.whileStmt test block) n
  | init (i test update body) : Inner (.forStmt i test update body) i
  | test (init t update body) : Inner (.forStmt init t update body) t
  | update (init test u body) : Inner (.forStmt init test u body) u
  | forBody (init test update) {block n} (h : n.Among block) :
      Inner (.forStmt init test update block) n

end Node

def Session.Step.tree? : Session.Step → Option Node
  | .source text => (Node.ofSource text).toOption
  | .saved j => (Node.ofJson j).toOption

/-- Which forests may occur, which may come later than which, which moment may come right after
which, in which scopes programs run and which values they hold. -/
structure Discipline where
  Inv : Forest → Prop
  Later : Forest → Forest → Prop
  Next : Moment → Moment → Prop
  Open : ScopeId → Forest → Prop
  Held : Value → Forest → Prop

namespace Discipline

structure Right (D : Discipline) (a : Moment) : Prop where
  inv : D.Inv a.forest
  held : ∀ v, a.occasion = .ends (some v) → D.Held v a.forest

inductive Leads (D : Discipline) : Moment → List Moment → Moment → Prop
  | here (a) : Leads D a [] a
  | step {a b ms c} (hn : D.Next a b) (hb : D.Right b) (h : Leads D b ms c) : Leads D a (b :: ms) c

/-- The moments after `a` lead to the end of a run. -/
inductive Goes {α : Type} (D : Discipline) (a : Moment) (P : α → Forest → Prop)
    (ms : List Moment) : EStateM.Result Fault Machine α → Prop
  | ok {v m b} (path : D.Leads a ms b) (hb : b.forest = m.forest) (hi : D.Inv m.forest)
      (hl : D.Later a.forest m.forest) (hv : P v m.forest) : Goes D a P ms (.ok v m)
  | error {fault m b} (path : D.Leads a ms b) (hb : b.forest = m.forest) (hi : D.Inv m.forest)
      (hl : D.Later a.forest m.forest) : Goes D a P ms (.error fault m)

def Good {α : Type} {x : Evaluator → Run α} (D : Discipline) (eval : Evaluator) (history : History)
    (a : Moment) (P : α → Forest → Prop) (c : Course x) : Prop :=
  ∀ m : Machine, m.forest = a.forest → D.Goes a P (c.moments eval history m) (x eval m)

def Keeps {α : Type} (D : Discipline) (a : Moment) (P : α → Forest → Prop)
    (action : Forest.Action α) : Prop :=
  (∃ v g, action a.forest = .ok v g ∧ D.Inv g ∧ D.Later a.forest g ∧
      D.Next a ⟨.changed, g⟩ ∧ P v g) ∨
    ∃ fault, action a.forest = .error fault a.forest

/-- Every operation on scopes keeps to the discipline. Only where a deletion begins, a name is
deleted. -/
structure Stable (D : Discipline) : Prop where
  refl : ∀ f, D.Later f f
  trans : ∀ {f g h}, D.Later f g → D.Later g h → D.Later f h
  next_same : ∀ {a b : Moment}, a.forest = b.forest → D.Next a b
  open_later : ∀ {id f g}, D.Open id f → D.Later f g → D.Open id g
  held_later : ∀ {v f g}, D.Held v f → D.Later f g → D.Held v g
  held_simple : ∀ {v f}, v.Simple → D.Held v f
  held_array : ∀ {i vs f}, D.Held (.array i vs) f ↔ ∀ v ∈ vs, D.Held v f
  open_closure : ∀ {i name params body closure f}, D.Inv f →
    D.Held (.function i name params body closure) f → D.Open closure f
  child : ∀ {a id}, D.Inv a.forest → D.Open id a.forest →
    D.Keeps a (fun inner g => D.Open inner g ∧ ∀ b discards, D.Inv b.forest → D.Later g b.forest →
      D.Inv (b.forest.leave discards inner) ∧ D.Later a.forest (b.forest.leave discards inner) ∧
        D.Next b ⟨.changed, b.forest.leave discards inner⟩) (Forest.child id)
  define : ∀ {a id v} (name mark), D.Inv a.forest → D.Open id a.forest → D.Held v a.forest →
    D.Keeps a D.Held (Forest.define id name v mark)
  get : ∀ {a id} (name), D.Inv a.forest → D.Open id a.forest → D.Keeps a D.Held (Forest.get id name)
  set : ∀ {a id v} (name), D.Inv a.forest → D.Open id a.forest → D.Held v a.forest →
    D.Keeps a D.Held (Forest.set id name v)
  delete : ∀ {f id n name}, Name.ofNode? n = some name → D.Inv f → D.Open id f →
    D.Keeps ⟨.begins (.deleteStmt n) id, f⟩ D.Held (Forest.delete id name)
  capture : ∀ {a id}, D.Inv a.forest → D.Open id a.forest →
    D.Inv (a.forest.capture id) ∧ D.Later a.forest (a.forest.capture id) ∧
      D.Next a ⟨.changed, a.forest.capture id⟩ ∧
      ∀ i name params body, D.Held (.function i name params body id) (a.forest.capture id)

/-- Which trees may be evaluated in a scope, which names may be declared there, and in which scopes
anything may. -/
structure Licence where
  May : Node → ScopeId → Forest → Prop
  Free : ScopeId → Name → Forest → Prop
  Own : ScopeId → Forest → Prop

/-- Where only trees are evaluated that the licence allows, every operation keeps to the discipline.
Parts of a tree that have a scope of their own may do there whatever they like, and so may the body
of a function. Only where a deletion begins, a name is deleted. -/
structure Respected (D : Discipline) (L : Licence) : Prop where
  refl : ∀ f, D.Later f f
  trans : ∀ {f g h}, D.Later f g → D.Later g h → D.Later f h
  next_same : ∀ {a b : Moment}, a.forest = b.forest → D.Next a b
  open_later : ∀ {id f g}, D.Open id f → D.Later f g → D.Open id g
  held_later : ∀ {v f g}, D.Held v f → D.Later f g → D.Held v g
  may_later : ∀ {n id f g}, L.May n id f → D.Later f g → L.May n id g
  free_later : ∀ {id name f g}, L.Free id name f → D.Later f g → L.Free id name g
  own_later : ∀ {id f g}, L.Own id f → D.Later f g → L.Own id g
  open_own : ∀ {id f}, L.Own id f → D.Open id f
  free_own : ∀ {id f} (name), L.Own id f → L.Free id name f
  may_part : ∀ {n p id f}, L.May n id f → n.Part p → L.May p id f
  may_inner : ∀ {n p id inner f g}, L.May n id f → n.Inner p → L.Own inner g →
    L.May p inner g
  may_body : ∀ {i name params body closure n inner f g}, D.Inv f →
    D.Held (.function i name params body closure) f → n.Among body → L.Own inner g →
    L.May n inner g
  free_varDecl : ∀ {n value isConst name id f}, L.May (.varDecl n value isConst) id f →
    Name.ofNode? n = some name → L.Free id name f
  free_funcDecl : ∀ {n params body name id f}, L.May (.funcDecl n params body) id f →
    Name.ofNode? n = some name → L.Free id name f
  held_number : ∀ x f, D.Held (.ofDouble x) f
  held_boolean : ∀ b f, D.Held (.boolean b) f
  held_null : ∀ f, D.Held .null f
  held_string : ∀ {c id f}, L.May (.stringLiteral c) id f → D.Held (.string c) f
  held_array : ∀ {i vs f}, D.Held (.array i vs) f ↔ ∀ v ∈ vs, D.Held v f
  held_step : ∀ {operator v w f}, D.Held v f → Operator.step? operator v = .ok (some w) →
    D.Held w f
  held_apply : ∀ {operator left right id i u v w f}, L.May (.binaryOp operator left right) id f →
    ¬ (operator.plain = "&&" ∨ operator.plain = "||") → D.Held u f → D.Held v f →
    Operator.apply i operator.plain u v = .ok w → D.Held w f
  held_get : ∀ {v i w f}, D.Held v f → D.Held i f → v.get i = .ok w → D.Held w f
  held_library : ∀ {native args f}, (∀ v ∈ args, D.Held v f) →
    Gives (D.Held · f) (Library.call native args)
  open_closure : ∀ {i name params body closure f}, D.Inv f →
    D.Held (.function i name params body closure) f → D.Open closure f
  child : ∀ {a id}, D.Inv a.forest → D.Open id a.forest →
    D.Keeps a (fun inner g => L.Own inner g ∧ ∀ b discards, D.Inv b.forest →
      D.Later g b.forest → D.Inv (b.forest.leave discards inner) ∧
        D.Later a.forest (b.forest.leave discards inner) ∧
        D.Next b ⟨.changed, b.forest.leave discards inner⟩) (Forest.child id)
  define : ∀ {a id v name} (mark), D.Inv a.forest → D.Open id a.forest → L.Free id name a.forest →
    D.Held v a.forest → D.Keeps a D.Held (Forest.define id name v mark)
  get : ∀ {a id} (name), D.Inv a.forest → D.Open id a.forest → D.Keeps a D.Held (Forest.get id name)
  set : ∀ {a id v} (name), D.Inv a.forest → D.Open id a.forest → D.Held v a.forest →
    D.Keeps a D.Held (Forest.set id name v)
  delete : ∀ {f id n name}, Name.ofNode? n = some name → D.Inv f → D.Open id f →
    D.Keeps ⟨.begins (.deleteStmt n) id, f⟩ D.Held (Forest.delete id name)
  capture : ∀ {a id n params body}, D.Inv a.forest → D.Open id a.forest →
    L.May (.funcDecl n params body) id a.forest →
    D.Inv (a.forest.capture id) ∧ D.Later a.forest (a.forest.capture id) ∧
      D.Next a ⟨.changed, a.forest.capture id⟩ ∧ ∀ i name, Name.ofNode? n = some name →
        D.Held (.function i name params body id) (a.forest.capture id)

/-- A tree that may be evaluated in the root scope at any time. -/
def Welcomes (D : Discipline) (L : Licence) (n : Node) : Prop :=
  ∀ f, D.Inv f → D.Open Forest.root f → L.May n Forest.root f

/-- A tree that may be run as a program at any time. -/
def Admits (D : Discipline) (L : Licence) (tree : Node) : Prop :=
  Gives (fun ns => ∀ n ∈ ns, D.Welcomes L n) (Session.statementsIn tree)

variable {D : Discipline} {L : Licence}

theorem right_changed {f : Forest} (h : D.Inv f) : D.Right ⟨.changed, f⟩ := by
  refine ⟨h, ?_⟩
  rintro v ⟨⟩

theorem right_begins {n : Node} {scope : ScopeId} {f : Forest} (h : D.Inv f) :
    D.Right ⟨.begins n scope, f⟩ := by
  refine ⟨h, ?_⟩
  rintro v ⟨⟩

theorem Leads.trans {a b c : Moment} {ms ns : List Moment} (h : D.Leads a ms b)
    (h' : D.Leads b ns c) : D.Leads a (ms ++ ns) c := by
  induction h with
  | here => exact h'
  | step hn hb _ ih => exact .step hn hb (ih h')

namespace Respected

variable (hD : D.Respected L) {eval : Evaluator} {history : History} {a : Moment} {α β : Type}

include hD

/-- A computation that leaves the scopes alone passes through no moment. -/
theorem goes_unchanged {P : α → Forest → Prop} {r : EStateM.Result Fault Machine α}
    (ha : D.Inv a.forest) (hr : (machineOf r).forest = a.forest)
    (hP : ∀ v n, r = .ok v n → P v a.forest) : D.Goes a P [] r := by
  cases r with
  | ok v n =>
    have hn : n.forest = a.forest := hr
    exact .ok (.here a) hn.symm (hn ▸ ha) (hn ▸ hD.refl _) (hn ▸ hP v n rfl)
  | error fault n =>
    have hn : n.forest = a.forest := hr
    exact .error (.here a) hn.symm (hn ▸ ha) (hn ▸ hD.refl _)

theorem good_quiet {P : α → Forest → Prop} {x : Run α} (hx : Blind x) (ha : D.Inv a.forest)
    (hP : ∀ m v n, x m = .ok v n → P v a.forest) : D.Good eval history a P (.quiet x hx) :=
  fun m hm => hD.goes_unchanged ha ((hx.forest m).trans hm) (hP m)

theorem good_done {P : α → Forest → Prop} {v : α} (ha : D.Inv a.forest) (hv : P v a.forest) :
    D.Good eval history a P (.done v) := by
  refine hD.good_quiet _ ha ?_
  rintro m _ _ ⟨⟩
  exact hv

theorem good_fault {P : α → Forest → Prop} (ha : D.Inv a.forest) (fault : Fault) :
    D.Good eval history a P (.fault fault : Course fun _ => (throw fault : Run α)) :=
  hD.good_quiet _ ha fun _ _ _ h => nomatch h

theorem good_ofExcept {P : α → Forest → Prop} {x : Except Fault α} (ha : D.Inv a.forest)
    (hP : ∀ v, x = .ok v → P v a.forest) : D.Good eval history a P (.lift x) :=
  hD.good_quiet _ ha (gives_ofExcept hP)

theorem good_lift (ha : D.Inv a.forest) (x : Except Fault α) :
    D.Good eval history a (fun v _ => x = .ok v) (.lift x) :=
  hD.good_ofExcept ha fun _ h => h

theorem good_log {level : Nat} {message : Unit → Except Fault Node} (h : Entry level message)
    (ha : D.Inv a.forest) : D.Good eval history a (fun _ _ => True) (.log h) :=
  fun m hm => hD.goes_unchanged ha ((forest_log level message m).trans hm) fun _ _ _ => trivial

theorem good_scopes {P : α → Forest → Prop} {action : Forest.Action α} (ha : D.Inv a.forest)
    (h : D.Keeps a P action) : D.Good eval history a P (.scopes action) := by
  intro m hm
  rcases h with ⟨v, g, hok, hi, hl, hn, hv⟩ | ⟨fault, hf⟩
  · have hrun : Run.scopes action m = .ok v { m with forest := g } := by
      simp only [Run.scopes, hm, hok]
    simp only [Course.moments, hrun]
    exact .ok (.step hn (right_changed hi) (.here _)) rfl hi hl hv
  · have hrun : Run.scopes action m = .error (.binding fault) m := by
      simp only [Run.scopes, hm, hf]
      rw [← hm]
    simp only [Course.moments, hrun]
    exact .error (.step (hD.next_same hm.symm) (right_changed (hm ▸ ha)) (.here _)) rfl (hm ▸ ha)
      (hm ▸ hD.refl _)

/-- One computation after another. -/
theorem goes_bind {P : α → Forest → Prop} {Q : β → Forest → Prop} {x : Run α} {k : α → Run β}
    {m : Machine} {ms : List Moment} {g : α → Machine → List Moment} (hx : D.Goes a P ms (x m))
    (hk : ∀ v (b : Moment), D.Inv b.forest → D.Later a.forest b.forest → P v b.forest →
      ∀ n : Machine, n.forest = b.forest → D.Goes b Q (g v n) (k v n)) :
    D.Goes a Q (ms ++ afterwards g (x m)) ((x >>= k) m) := by
  simp only [bind, EStateM.bind]
  generalize x m = r at hx
  cases hx with
  | error path hb hi hl =>
    rw [afterwards, List.append_nil]
    exact .error path hb hi hl
  | @ok v n b path hb hi hl hv =>
    have hnext := hk v b (hb ▸ hi) (hb ▸ hl) (hb ▸ hv) n hb.symm
    simp only [afterwards]
    generalize k v n = r at hnext
    cases hnext with
    | ok path' hb' hi' hl' hw =>
      exact .ok (path.trans path') hb' hi' (hD.trans hl (hb ▸ hl')) hw
    | error path' hb' hi' hl' =>
      exact .error (path.trans path') hb' hi' (hD.trans hl (hb ▸ hl'))

theorem good_seq {P : α → Forest → Prop} {Q : β → Forest → Prop} {x : Evaluator → Run α}
    {k : α → Evaluator → Run β} {c : Course x} {d : (v : α) → Course (k v)}
    (hc : D.Good eval history a P c)
    (hd : ∀ v b, D.Inv b.forest → D.Later a.forest b.forest → P v b.forest →
      D.Good eval history b Q (d v)) : D.Good eval history a Q (.seq c d) := by
  intro m hm
  simp only [Course.moments]
  exact hD.goes_bind (hc m hm) hd

/-- No moment passes where a computation leaves the scopes alone. -/
theorem good_quiet_seq {P : α → Prop} {Q : β → Forest → Prop} {x : Run α}
    {k : α → Evaluator → Run β} {d : (v : α) → Course (k v)} (hx : Blind x) (ha : D.Inv a.forest)
    (hP : Gives P x) (hd : ∀ v, P v → D.Good eval history a Q (d v)) :
    D.Good eval history a Q (.seq (.quiet x hx) d) := by
  intro m hm
  have hforest := (hx.forest m).trans hm
  simp only [Course.moments, bind, EStateM.bind, List.nil_append]
  cases hr : x m with
  | ok v n =>
    rw [hr] at hforest
    simp only [afterwards]
    exact hd v (hP m v n hr) n hforest
  | error fault n =>
    rw [hr] at hforest
    exact hD.goes_unchanged ha hforest fun _ _ h => nomatch h

theorem good_discard {P : α → Forest → Prop} {x : Evaluator → Run α} {c : Course x}
    (hc : D.Good eval history a P c) :
    D.Good eval history a (fun _ _ => True) (.discard c) :=
  hD.good_seq hc fun _ _ hb _ _ => hD.good_done hb trivial

omit hD in
theorem good_same {P : α → Forest → Prop} {x y : Evaluator → Run α} (h : x = y) {c : Course x}
    (hc : D.Good eval history a P c) : D.Good eval history a P (.same h c) := by
  subst h
  exact hc

/-- Something in a scope of its own. -/
theorem good_within {parent : ScopeId} {body : ScopeId → Evaluator → Run Unit}
    {c : (id : ScopeId) → Course (body id)} (ha : D.Inv a.forest) (ho : D.Open parent a.forest)
    (hc : ∀ id b, D.Inv b.forest → D.Later a.forest b.forest → L.Own id b.forest →
      D.Good eval history b (fun _ _ => True) (c id)) :
    D.Good eval history a (fun _ _ => True) (.within parent c) := by
  intro m hm
  obtain ⟨occasion, f⟩ := a
  obtain rfl : m.forest = f := hm
  rcases hD.child ha ho with ⟨id, g, hok, hi, hl, hn, hown, hleave⟩ | ⟨fault, hf⟩
  · cases hok
    have hbody := hc _ ⟨.changed, _⟩ hi hl hown (m.inside parent) rfl
    simp only [Course.moments, within_apply]
    generalize body m.forest.scopes.size eval (m.inside parent) = r at hbody
    cases hbody with
    | @ok v n b path hb hi' hl' _ =>
      obtain ⟨hi'', hl'', hn''⟩ := hleave b n.discards (hb ▸ hi') (hb ▸ hl')
      rw [hb] at hi'' hl'' hn''
      have hend := Leads.step hn'' (right_changed hi'') (.here _)
      exact .ok (.step hn (right_changed hi) (path.trans hend)) rfl hi'' hl'' trivial
    | @error fault n b path hb hi' hl' =>
      obtain ⟨hi'', hl'', hn''⟩ := hleave b n.discards (hb ▸ hi') (hb ▸ hl')
      rw [hb] at hi'' hl'' hn''
      have hend := Leads.step hn'' (right_changed hi'') (.here _)
      exact .error (.step hn (right_changed hi) (path.trans hend)) rfl hi'' hl''
  · cases hf

theorem good_nameOf (ha : D.Inv a.forest) (n : Node) :
    D.Good eval history a (fun x _ => Name.ofNode? n = some x) (.nameOf n) :=
  hD.good_quiet _ ha (gives_nameOf n)

theorem good_statementsOf (ha : D.Inv a.forest) (n : Node) :
    D.Good eval history a (fun ss _ => n = .block ss) (.statementsOf n) :=
  hD.good_quiet _ ha (gives_statementsOf n)

theorem good_freshIdentity (ha : D.Inv a.forest) :
    D.Good eval history a (fun _ _ => True) (.quiet _ blind_freshIdentity) :=
  hD.good_quiet _ ha fun _ _ _ _ => trivial

section Rules

variable (heval : ∀ {a : Moment} {scope : ScopeId} {n : Node}, D.Inv a.forest →
    D.Open scope a.forest → L.May n scope a.forest → D.Good eval history a D.Held (.part n scope))
  {scope : ScopeId} (ha : D.Inv a.forest) (ho : D.Open scope a.forest)

include heval ha ho

theorem good_all {ns : List Node} (hns : ∀ n ∈ ns, L.May n scope a.forest) :
    D.Good eval history a (fun vs f => ∀ v ∈ vs, D.Held v f) (.all scope ns) := by
  induction ns generalizing a with
  | nil => exact hD.good_done ha (by simp)
  | cons n ns ih =>
    obtain ⟨hn, hns⟩ := List.forall_mem_cons.mp hns
    refine hD.good_seq (heval ha ho hn) fun v b hb hab hv => ?_
    have hrest := ih hb (hD.open_later ho hab) fun n hn => hD.may_later (hns n hn) hab
    refine hD.good_seq hrest fun vs c hc hbc hvs => ?_
    exact hD.good_done hc (List.forall_mem_cons.mpr ⟨hD.held_later hv hbc, hvs⟩)

theorem good_sequence {ns : List Node} (hns : ∀ n ∈ ns, L.May n scope a.forest) :
    D.Good eval history a (fun _ _ => True) (.sequence scope ns) := by
  induction ns generalizing a with
  | nil => exact hD.good_done ha trivial
  | cons n ns ih =>
    obtain ⟨hn, hns⟩ := List.forall_mem_cons.mp hns
    refine hD.good_seq (hD.good_discard (heval ha ho hn)) fun _ b hb hab _ => ?_
    exact ih hb (hD.open_later ho hab) fun n hn => hD.may_later (hns n hn) hab

/-- Statements that may be evaluated in whatever scope they are given. -/
theorem good_inOwnScope (statements : Node)
    (hns : ∀ ns, Content.parts statements = .ok ns → ∀ n ∈ ns, ∀ inner g, L.Own inner g →
      L.May n inner g) :
    D.Good eval history a (fun _ _ => True) (.inOwnScope statements scope) := by
  refine hD.good_within ha ho fun inner b hb _ hi => ?_
  refine hD.good_seq (hD.good_lift hb _) fun ns c hc hbc hparts => ?_
  have hi := hD.own_later hi hbc
  exact hD.good_sequence heval hc (hD.open_own hi) fun n hn => hns ns hparts n hn _ _ hi

theorem good_blockIn (block : Node)
    (hns : ∀ n, n.Among block → ∀ inner g, L.Own inner g → L.May n inner g) :
    D.Good eval history a (fun _ _ => True) (.blockIn block scope) := by
  refine hD.good_seq (hD.good_statementsOf ha block) fun statements b hb hab hblock => ?_
  refine hD.good_inOwnScope heval hb (hD.open_later ho hab) statements fun ns hparts n hn => ?_
  exact hns n ⟨statements, ns, hblock, hparts, hn⟩

theorem good_blockIfAny (block : Node)
    (hns : ∀ n, n.Among block → ∀ inner g, L.Own inner g → L.May n inner g) :
    D.Good eval history a (fun _ _ => True) (.blockIfAny block scope) := by
  cases block
  case null => exact hD.good_done ha trivial
  all_goals exact hD.good_blockIn heval ha ho _ hns

theorem good_valueIfAny {value : Node} (hn : value ≠ .null → L.May value scope a.forest) :
    D.Good eval history a D.Held (.valueIfAny value scope) := by
  cases value
  case null => exact hD.good_done ha (hD.held_null _)
  all_goals exact heval ha ho (hn nofun)

theorem good_condition {n : Node} (hn : L.May n scope a.forest) :
    D.Good eval history a (fun _ _ => True) (.condition n scope) := by
  refine hD.good_seq (heval ha ho hn) fun v b hb _ _ => ?_
  exact hD.good_ofExcept hb fun _ _ => trivial

omit heval ho in
/-- The passes of a loop: the induction is on their number. -/
theorem good_loop {condition : Evaluator → Run Bool} {body : Evaluator → Run Unit}
    {test : Course condition} {pass : Course body}
    (ht : ∀ {b : Moment}, D.Inv b.forest → D.Later a.forest b.forest →
      D.Good eval history b (fun _ _ => True) test)
    (hp : ∀ {b : Moment}, D.Inv b.forest → D.Later a.forest b.forest →
      D.Good eval history b (fun _ _ => True) pass) (passes count : Nat) :
    D.Good eval history a (fun _ _ => True) (.loop test pass passes count) := by
  induction passes generalizing a count with
  | zero => exact hD.good_fault ha _
  | succ passes ih =>
    refine hD.good_seq (ht ha (hD.refl _)) fun holds b hb hab _ => ?_
    cases holds with
    | false => exact hD.good_done hb trivial
    | true =>
      refine hD.good_seq (hp hb hab) fun _ c hc hbc _ => ?_
      have hac := hD.trans hab hbc
      exact ih hc (fun hd hcd => ht hd (hD.trans hac hcd))
        (fun hd hcd => hp hd (hD.trans hac hcd)) (count + 1)

omit heval in
theorem good_declare (name isConst : Node) {v : Value}
    (hfree : ∀ x, Name.ofNode? name = some x → L.Free scope x a.forest) (hv : D.Held v a.forest) :
    D.Good eval history a D.Held (.declare name isConst v scope) := by
  refine hD.good_seq (hD.good_nameOf ha name) fun x b hb hab hx => ?_
  have hvb := hD.held_later hv hab
  have hdefine (mark : Mark) :=
    hD.define mark hb (hD.open_later ho hab) (hD.free_later (hfree x hx) hab) hvb
  refine hD.good_seq (hD.good_discard (hD.good_scopes hb (hdefine _))) fun _ c hc hbc _ => ?_
  refine hD.good_seq (hD.good_log _ hc) fun _ d hd hcd _ => ?_
  exact hD.good_done hd (hD.held_later (hD.held_later hvb hbc) hcd)

theorem good_varDecl {name value isConst : Node}
    (hn : L.May (.varDecl name value isConst) scope a.forest) :
    D.Good eval history a D.Held (.varDecl name value isConst scope) := by
  have hvalue := hD.good_valueIfAny heval ha ho fun h => hD.may_part hn (.declared name isConst h)
  refine hD.good_seq hvalue fun v b hb hab hv => ?_
  refine hD.good_declare hb (hD.open_later ho hab) name isConst (fun x hx => ?_) hv
  exact hD.free_later (hD.free_varDecl hn hx) hab

theorem good_assign {name value : Node} (hn : L.May (.assign name value) scope a.forest) :
    D.Good eval history a D.Held (.assign name value scope) := by
  refine hD.good_seq (heval ha ho (hD.may_part hn (.assigned name value))) fun v b hb hab hv => ?_
  refine hD.good_seq (hD.good_nameOf hb name) fun x c hc hbc _ => ?_
  have hoc := hD.open_later (hD.open_later ho hab) hbc
  exact hD.good_scopes hc (hD.set x hc hoc (hD.held_later hv hbc))

theorem good_ifStmt {test thenBlock elseBlock : Node}
    (hn : L.May (.ifStmt test thenBlock elseBlock) scope a.forest) :
    D.Good eval history a D.Held (.ifStmt test thenBlock elseBlock scope) := by
  have htest := heval ha ho (hD.may_part hn (.branching test thenBlock elseBlock))
  refine hD.good_seq htest fun v b hb hab _ => ?_
  refine hD.good_seq (hD.good_lift hb _) fun holds c hc hbc _ => ?_
  refine hD.good_seq (hD.good_log _ hc) fun _ d hd hcd _ => ?_
  have hod := hD.open_later (hD.open_later (hD.open_later ho hab) hbc) hcd
  cases holds with
  | true =>
    have hblock := hD.good_blockIn heval hd hod thenBlock fun n h _ _ hi =>
      hD.may_inner hn (.thenBlock test elseBlock h) hi
    exact hD.good_seq hblock fun _ e he _ _ => hD.good_done he (hD.held_null _)
  | false =>
    have hblock := hD.good_blockIfAny heval hd hod elseBlock fun n h _ _ hi =>
      hD.may_inner hn (.elseBlock test thenBlock h) hi
    exact hD.good_seq hblock fun _ e he _ _ => hD.good_done he (hD.held_null _)

theorem good_whileStmt (passes : Nat) {test body : Node}
    (hn : L.May (.whileStmt test body) scope a.forest) :
    D.Good eval history a D.Held (.whileStmt passes test body scope) := by
  have htest {b : Moment} (hb : D.Inv b.forest) (hab : D.Later a.forest b.forest) :
      D.Good eval history b (fun _ _ => True) (.condition test scope) :=
    hD.good_condition heval hb (hD.open_later ho hab)
      (hD.may_later (hD.may_part hn (.looping test body)) hab)
  have hpass {b : Moment} (hb : D.Inv b.forest) (hab : D.Later a.forest b.forest) :
      D.Good eval history b (fun _ _ => True) (.blockIn body scope) :=
    hD.good_blockIn heval hb (hD.open_later ho hab) body fun n h _ _ hi =>
      hD.may_inner hn (.whileBody test h) hi
  refine hD.good_seq (hD.good_loop ha htest hpass passes 0) fun count b hb _ _ => ?_
  refine hD.good_seq (hD.good_log _ hb) fun _ c hc _ _ => ?_
  exact hD.good_done hc (hD.held_null _)

theorem good_forStmt (passes : Nat) {init test update body : Node}
    (hn : L.May (.forStmt init test update body) scope a.forest) :
    D.Good eval history a D.Held (.forStmt passes init test update body scope) := by
  refine hD.good_seq (hD.good_within ha ho fun inner b hb _ hi => ?_) fun _ b hb _ _ =>
    hD.good_done hb (hD.held_null _)
  have hinit := heval hb (hD.open_own hi) (hD.may_inner hn (.init init test update body) hi)
  refine hD.good_seq (hD.good_discard hinit) fun _ c hc hbc _ => ?_
  have hic := hD.own_later hi hbc
  have htest {d : Moment} (hd : D.Inv d.forest) (hcd : D.Later c.forest d.forest) :
      D.Good eval history d (fun _ _ => True) (.condition test inner) := by
    have hid := hD.own_later hic hcd
    exact hD.good_condition heval hd (hD.open_own hid)
      (hD.may_inner hn (.test init test update body) hid)
  have hpass {d : Moment} (hd : D.Inv d.forest) (hcd : D.Later c.forest d.forest) :
      D.Good eval history d (fun _ _ => True)
        (.seq (.blockIn body inner) fun _ => .discard (.part update inner)) := by
    have hid := hD.own_later hic hcd
    have hblock := hD.good_blockIn heval hd (hD.open_own hid) body fun n h _ _ hi =>
      hD.may_inner hn (.forBody init test update h) hi
    refine hD.good_seq hblock fun _ e he hde _ => hD.good_discard (P := D.Held) ?_
    have hie := hD.own_later hid hde
    exact heval he (hD.open_own hie) (hD.may_inner hn (.update init test update body) hie)
  exact hD.good_seq (hD.good_loop hc htest hpass passes 0) fun count d hd _ _ => hD.good_log _ hd

omit heval in
theorem good_funcDecl {name params body : Node}
    (hn : L.May (.funcDecl name params body) scope a.forest) :
    D.Good eval history a D.Held (.funcDecl name params body scope) := by
  have hcapture : D.Good eval history a (fun _ f => D.Open scope f ∧
      (∀ x, Name.ofNode? name = some x → L.Free scope x f) ∧
      ∀ i x, Name.ofNode? name = some x → D.Held (.function i x params body scope) f)
      (.capture scope) := by
    intro m hm
    obtain ⟨hi, hl, hnext, hf⟩ := hD.capture ha ho hn
    rw [← hm] at hi hl hnext hf
    have hl : D.Later a.forest (m.forest.capture scope) := hm ▸ hl
    exact .ok (.step hnext (right_changed hi) (.here _)) rfl hi hl
      ⟨hD.open_later ho hl, fun x hx => hD.free_later (hD.free_funcDecl hn hx) hl, hf⟩
  refine hD.good_seq hcapture fun _ b hb _ ⟨hob, hfree, hfun⟩ => ?_
  refine hD.good_seq (hD.good_nameOf hb name) fun x c hc hbc hx => ?_
  refine hD.good_seq (hD.good_freshIdentity hc) fun i d hd hcd _ => ?_
  have hbd := hD.trans hbc hcd
  have hfd := hD.held_later (hfun i x hx) hbd
  have hdefine := hD.define .function hd (hD.open_later hob hbd)
    (hD.free_later (hfree x hx) hbd) hfd
  refine hD.good_seq (hD.good_discard (hD.good_scopes hd hdefine)) fun _ e he hde _ => ?_
  refine hD.good_seq (hD.good_log _ he) fun _ g hg heg _ => ?_
  exact hD.good_done hg (hD.held_later (hD.held_later hfd hde) heg)

omit heval ho in
theorem good_bindParams (hown : L.Own scope a.forest) (params : List Node) {args : List Value}
    (hargs : ∀ v ∈ args, D.Held v a.forest) :
    D.Good eval history a (fun _ _ => True) (.bindParams scope params args) := by
  induction params generalizing a args with
  | nil => exact hD.good_done ha trivial
  | cons param params ih =>
    refine hD.good_seq (hD.good_nameOf ha param) fun x b hb hab _ => ?_
    have hown := hD.own_later hown hab
    have hv : D.Held (args.headD .null) b.forest := by
      cases args with
      | nil => exact hD.held_null _
      | cons v args => exact hD.held_later (hargs v (by simp)) hab
    have hdefine := hD.define .variable hb (hD.open_own hown) (hD.free_own x hown) hv
    refine hD.good_seq (hD.good_discard (hD.good_scopes hb hdefine)) fun _ c hc hbc _ => ?_
    refine ih hc (hD.own_later hown hbc) fun v hv => ?_
    exact hD.held_later (hD.held_later (hargs v (List.mem_of_mem_tail hv)) hab) hbc

theorem good_body {ns : List Node} (hns : ∀ n ∈ ns, L.May n scope a.forest) :
    D.Good eval history a D.Held (.body scope ns) := by
  induction ns generalizing a with
  | nil => exact hD.good_done ha (hD.held_null _)
  | cons n ns ih =>
    obtain ⟨hn, hrest⟩ := List.forall_mem_cons.mp hns
    cases n
    case returnStmt value => exact heval ha ho hn
    all_goals
      refine hD.good_seq (hD.good_discard (heval ha ho hn)) fun _ b hb hab _ => ?_
      exact ih hb (hD.open_later ho hab) fun n hn => hD.may_later (hrest n hn) hab

omit ho in
theorem good_invoke (name : Name) {f : Value} {args : List Value} (hf : D.Held f a.forest)
    (hargs : ∀ v ∈ args, D.Held v a.forest) :
    D.Good eval history a D.Held (.invoke name f args) := by
  cases f with
  | native f => exact hD.good_quiet _ ha (hD.held_library hargs)
  | function i x params block closure =>
    have hchild := hD.child ha (hD.open_closure ha hf)
    refine hD.good_seq (hD.good_scopes ha hchild) fun scope b hb hab ⟨hown, _⟩ => ?_
    refine hD.good_seq (hD.good_lift hb _) fun ps c hc hbc _ => ?_
    have hac := hD.trans hab hbc
    have hargs := fun v hv => hD.held_later (hargs v hv) hac
    refine hD.good_seq (hD.good_bindParams hc (hD.own_later hown hbc) ps hargs) ?_
    intro _ d hd hcd _
    refine hD.good_seq (hD.good_statementsOf hd block) fun ss e he hde hblock => ?_
    refine hD.good_seq (hD.good_lift he _) fun ns g hg heg hparts => ?_
    have hbg := hD.trans (hD.trans (hD.trans hbc hcd) hde) heg
    have hown := hD.own_later hown hbg
    refine hD.good_body heval hg (hD.open_own hown) fun n hn => ?_
    exact hD.may_body ha hf ⟨ss, ns, hblock, hparts, hn⟩ hown
  | _ => exact hD.good_fault ha _

theorem good_call {name args : Node} (hn : L.May (.call name args) scope a.forest) :
    D.Good eval history a D.Held (.call name args scope) := by
  refine hD.good_seq (hD.good_nameOf ha name) fun x b hb hab _ => ?_
  have hob := hD.open_later ho hab
  refine hD.good_seq (hD.good_scopes hb (hD.get x hb hob)) fun f c hc hbc hf => ?_
  refine hD.good_seq (hD.good_lift hc _) fun ns d hd hcd hparts => ?_
  have had := hD.trans (hD.trans hab hbc) hcd
  have hall := hD.good_all heval hd (hD.open_later ho had) fun n h =>
    hD.may_later (hD.may_part hn (.argument name hparts h)) had
  refine hD.good_seq hall fun vs e he hde hvs => ?_
  refine hD.good_seq (hD.good_log _ he) fun _ g hg heg _ => ?_
  have hfg := hD.held_later hf (hD.trans (hD.trans hcd hde) heg)
  exact hD.good_invoke heval hg x hfg fun v hv => hD.held_later (hvs v hv) heg

theorem good_unary {operator operand : Node}
    (hn : L.May (.unaryOp operator operand) scope a.forest) :
    D.Good eval history a D.Held (.unary operator operand scope) := by
  have hoperand := heval ha ho (hD.may_part hn (.operand operator operand))
  unfold Course.unary
  split
  · refine good_same _ (hD.good_seq hoperand fun v b hb hab hv => ?_)
    refine hD.good_seq (hD.good_lift hb _) fun next? c hc hbc hnext => ?_
    have hoc := hD.open_later (hD.open_later ho hab) hbc
    cases next? with
    | none => exact hD.good_done hc (hD.held_null _)
    | some next =>
      have hheld := hD.held_step (hD.held_later hv hbc) hnext
      cases operand.name? with
      | none => exact hD.good_fault hc _
      | some name =>
        refine hD.good_seq (hD.good_nameOf hc name) fun x d hd hcd _ => ?_
        exact hD.good_scopes hd (hD.set x hd (hD.open_later hoc hcd) (hD.held_later hheld hcd))
  · rename_i h
    refine good_same _ (hD.good_seq hoperand fun v b hb _ _ => ?_)
    exact hD.good_quiet _ hb (gives_unary (fun x => hD.held_number x _)
      (fun b => hD.held_boolean b _) (hD.held_null _) h operand scope v)

theorem good_binary {operator left right : Node}
    (hn : L.May (.binaryOp operator left right) scope a.forest) :
    D.Good eval history a D.Held (.binary operator left right scope) := by
  have hleft := heval ha ho (hD.may_part hn (.left operator left right))
  have hright {b : Moment} (hb : D.Inv b.forest) (hab : D.Later a.forest b.forest) :=
    heval hb (hD.open_later ho hab) (hD.may_later (hD.may_part hn (.right operator left right)) hab)
  unfold Course.binary
  split
  · refine good_same _ (hD.good_seq hleft fun v b hb hab _ => ?_)
    refine hD.good_seq (hD.good_lift hb _) fun falsy c hc hbc _ => ?_
    split
    · exact good_same _ (hD.good_done hc (hD.held_boolean _ _))
    · refine good_same _ (hD.good_seq (hright hc (hD.trans hab hbc)) fun w d hd _ _ => ?_)
      refine hD.good_seq (hD.good_lift hd _) fun _ e he _ _ => ?_
      exact hD.good_done he (hD.held_boolean _ _)
  · rename_i h
    refine good_same _ (hD.good_seq hleft fun v b hb hab hv => ?_)
    refine hD.good_seq (hright hb hab) fun w c hc hbc hw => ?_
    refine hD.good_quiet_seq _ hc (gives_any _) fun _ _ => ?_
    refine hD.good_seq (hD.good_freshIdentity hc) fun i d hd hcd _ => ?_
    refine hD.good_ofExcept hd fun u hu => ?_
    have hnd := hD.may_later hn (hD.trans (hD.trans hab hbc) hcd)
    exact hD.held_apply hnd h (hD.held_later hv (hD.trans hbc hcd)) (hD.held_later hw hcd) hu

theorem good_arrayLiteral {elems : Node} (hn : L.May (.arrayLiteral elems) scope a.forest) :
    D.Good eval history a D.Held (.arrayLiteral elems scope) := by
  refine hD.good_seq (hD.good_lift ha _) fun ns b hb hab hparts => ?_
  have hall := hD.good_all heval hb (hD.open_later ho hab) fun n h =>
    hD.may_later (hD.may_part hn (.item hparts h)) hab
  refine hD.good_seq hall fun vs c hc _ hvs => ?_
  refine hD.good_seq (hD.good_freshIdentity hc) fun i d hd hcd _ => ?_
  exact hD.good_done hd (hD.held_array.mpr fun v hv => hD.held_later (hvs v hv) hcd)

theorem good_index {target position : Node} (hn : L.May (.index target position) scope a.forest) :
    D.Good eval history a D.Held (.index target position scope) := by
  have htarget := heval ha ho (hD.may_part hn (.target target position))
  refine hD.good_seq htarget fun v b hb hab hv => ?_
  have hposition := heval hb (hD.open_later ho hab)
    (hD.may_later (hD.may_part hn (.position target position)) hab)
  refine hD.good_seq hposition fun i c hc hbc hi => ?_
  exact hD.good_ofExcept hc fun w hw => hD.held_get (hD.held_later hv hbc) hi hw

omit ha ho in
/-- One step: the rule of a tree, right after its evaluation has begun. -/
theorem good_rule {f : Forest} (passes : Nat) {n : Node} (hf : D.Inv f) (ho : D.Open scope f)
    (hn : L.May n scope f) :
    D.Good eval history ⟨.begins n scope, f⟩ D.Held (.rule passes n scope) := by
  cases n with
  | numberLiteral value =>
    refine hD.good_seq (hD.good_lift hf _) fun x b hb _ _ => ?_
    exact hD.good_done hb (hD.held_number x _)
  | stringLiteral value => exact hD.good_done hf (hD.held_string hn)
  | booleanLiteral value => exact hD.good_done hf (hD.held_boolean _ _)
  | nullLiteral | emptyStmt => exact hD.good_done hf (hD.held_null _)
  | identifier name =>
    refine hD.good_seq (hD.good_nameOf hf name) fun x b hb hab _ => ?_
    exact hD.good_scopes hb (hD.get x hb (hD.open_later ho hab))
  | varDecl name value isConst => exact hD.good_varDecl heval hf ho hn
  | assign name value => exact hD.good_assign heval hf ho hn
  | unaryOp operator operand => exact hD.good_unary heval hf ho hn
  | binaryOp operator left right => exact hD.good_binary heval hf ho hn
  | block statements =>
    have hblock := hD.good_inOwnScope (a := ⟨.begins (.block statements) scope, f⟩) heval hf ho
      statements fun ns hparts p hp _ _ hi => hD.may_inner hn (.statement hparts hp) hi
    exact hD.good_seq hblock fun _ b hb _ _ => hD.good_done hb (hD.held_null _)
  | ifStmt test thenBlock elseBlock => exact hD.good_ifStmt heval hf ho hn
  | whileStmt test body => exact hD.good_whileStmt heval hf ho passes hn
  | forStmt init test update body => exact hD.good_forStmt heval hf ho passes hn
  | funcDecl name params body => exact hD.good_funcDecl hf ho hn
  | call name args => exact hD.good_call heval hf ho hn
  | returnStmt value =>
    exact hD.good_valueIfAny heval hf ho fun h => hD.may_part hn (.returned h)
  | deleteStmt name =>
    refine hD.good_quiet_seq _ hf (gives_nameOf name) fun x hx => ?_
    exact hD.good_scopes hf (hD.delete hx hf ho)
  | arrayLiteral elems => exact hD.good_arrayLiteral heval hf ho hn
  | index target position => exact hD.good_index heval hf ho hn
  | _ => exact hD.good_fault hf _

end Rules

/-- The beginning and the end around the moments of an evaluation. -/
theorem goes_enclosed {n : Node} {scope : ScopeId} {f : Forest} {l : List Moment}
    {r : EStateM.Result Fault Machine Value} (ha : D.Inv a.forest) (hf : f = a.forest)
    (h : D.Goes ⟨.begins n scope, f⟩ D.Held l r) :
    D.Goes a D.Held (⟨.begins n scope, f⟩ :: l ++ [.closing r]) r := by
  subst hf
  have hbegin : D.Next a ⟨.begins n scope, a.forest⟩ := hD.next_same rfl
  cases h with
  | @ok v m b path hb hi hl hv =>
    have hclosing : D.Right (.closing (.ok v m)) := by
      refine ⟨hi, ?_⟩
      rintro _ ⟨⟩
      exact hv
    have hend := Leads.step (hD.next_same hb) hclosing (.here _)
    exact .ok (.step hbegin (right_begins ha) (path.trans hend)) rfl hi hl hv
  | @error fault m b path hb hi hl =>
    have hclosing : D.Right (.closing (.error fault m)) := by
      refine ⟨hi, ?_⟩
      rintro _ ⟨⟩
    have hend := Leads.step (hD.next_same hb) hclosing (.here _)
    exact .error (.step hbegin (right_begins ha) (path.trans hend)) rfl hi hl

/-- The moments of an evaluation, by induction on the depth. -/
theorem goes_history (passes depth : Nat) {scope : ScopeId} {n : Node} (ha : D.Inv a.forest)
    (ho : D.Open scope a.forest) (hn : L.May n scope a.forest) (m : Machine)
    (hm : m.forest = a.forest) :
    D.Goes a D.Held (Script.history passes depth n scope m) (evaluate passes depth n scope m) := by
  induction depth generalizing a scope n m with
  | zero =>
    refine hD.goes_enclosed (l := []) ha hm ?_
    exact .error (.here _) rfl (hm ▸ ha) (hD.refl _)
  | succ depth ih =>
    refine hD.goes_enclosed ha hm ?_
    exact hD.good_rule (fun hb hob hn => ih hb hob hn) passes (hm ▸ ha) (hm ▸ ho) (hm ▸ hn) m rfl

theorem goes_blind {P : α → Forest → Prop} {x : Run α} {k : α → Run β} {m : Machine}
    {ms : List Moment} (hx : D.Goes a P ms (x m)) (hk : ∀ v, Blind (k v)) :
    D.Goes a (fun _ _ => True) ms ((x >>= k) m) := by
  have h := hD.goes_bind (Q := fun _ _ => True) (k := k) (g := fun _ _ => []) hx
    fun v b hb _ _ n hn => hD.goes_unchanged hb (((hk v).forest n).trans hn) fun _ _ _ => trivial
  have hnone : afterwards (fun _ _ => []) (x m) = ([] : List Moment) := by cases x m <;> rfl
  rwa [hnone, List.append_nil] at h

theorem goes_statement (echo : Bool) {n : Node} (ha : D.Inv a.forest)
    (ho : D.Open Forest.root a.forest) (hn : L.May n Forest.root a.forest) (m : Machine)
    (hm : m.forest = a.forest) :
    D.Goes a (fun _ _ => True)
      (Script.history Session.passLimit Session.depthLimit n Forest.root m)
      (Session.statement echo n m) := by
  refine hD.goes_blind (hD.goes_history _ _ ha ho hn m hm) fun v => ?_
  cases echo && !v.isNull with
  | false => exact blind_pure v
  | true =>
    refine (blind_ofExcept _).bind fun line => ?_
    exact (blind_write line).bind fun _ => blind_pure v

theorem goes_statements (echo : Bool) {ns : List Node} (values : List Value) (ha : D.Inv a.forest)
    (ho : D.Open Forest.root a.forest) (hns : ∀ n ∈ ns, D.Welcomes L n) (m : Machine)
    (hm : m.forest = a.forest) :
    D.Goes a (fun _ _ => True) (Session.statementsMoments echo ns m)
      (Session.statements echo values ns m) := by
  induction ns generalizing a values m with
  | nil => exact hD.goes_unchanged ha hm fun _ _ _ => trivial
  | cons n ns ih =>
    rw [Session.statements_cons]
    simp only [Session.statementsMoments]
    obtain ⟨hn, hns⟩ := List.forall_mem_cons.mp hns
    have hfirst := hD.goes_statement echo ha ho (hn _ ha ho) m hm
    refine hD.goes_bind hfirst fun v b hb hab _ m hm => ?_
    exact ih (v :: values) hb (hD.open_later ho hab) hns m hm

theorem goes_program (echo : Bool) {tree : Node} (ha : D.Inv a.forest)
    (ho : D.Open Forest.root a.forest) (ht : D.Admits L tree) (m : Machine)
    (hm : m.forest = a.forest) :
    D.Goes a (fun _ _ => True) (Session.treeMoments echo tree m) (Session.program echo tree m) := by
  have hblind : Blind (Session.statementsIn tree) :=
    (blind_bodyOf tree).bind fun _ => blind_ofExcept _
  have hfirst := hD.goes_unchanged (P := fun ns _ => ∀ n ∈ ns, D.Welcomes L n) ha
    ((hblind.forest m).trans hm) (ht m)
  rw [Session.program_eq]
  refine hD.goes_bind hfirst fun ns b hb hab hns n hn => ?_
  exact hD.goes_statements echo [] hb (hD.open_later ho hab) hns n hn

/-- The moments of a step lead to the machine after it. -/
theorem leads_step (echo : Bool) {step : Session.Step} (ha : D.Inv a.forest)
    (ho : D.Open Forest.root a.forest) (hstep : ∀ tree, step.tree? = some tree → D.Admits L tree)
    (m : Machine) (hm : m.forest = a.forest) :
    ∃ b, D.Leads a (step.moments echo m) b ∧ b.forest = (step.run echo m).2.forest ∧
      D.Inv b.forest ∧ D.Later a.forest b.forest := by
  have htree {tree : Node} (ht : D.Admits L tree) :
      ∃ b, D.Leads a (Session.treeMoments echo tree m) b ∧
        b.forest = (Session.tree echo tree m).2.forest ∧ D.Inv b.forest ∧
          D.Later a.forest b.forest := by
    have h := hD.goes_program echo ha ho ht m hm
    simp only [Session.tree]
    generalize Session.program echo tree m = r at h
    cases h with
    | ok path hb hi hl _ => exact ⟨_, path, hb, hb ▸ hi, hb ▸ hl⟩
    | error path hb hi hl => exact ⟨_, path, hb, hb ▸ hi, hb ▸ hl⟩
  cases step with
  | source text =>
    simp only [Session.Step.moments, Session.Step.run, Session.source]
    cases h : Node.ofSource text with
    | error fault => exact ⟨a, .here a, hm.symm, ha, hD.refl _⟩
    | ok tree => exact htree (hstep tree (by rw [Session.Step.tree?, h]; rfl))
  | saved j =>
    simp only [Session.Step.moments, Session.Step.run, Session.saved]
    cases h : Node.ofJson j with
    | error fault => exact ⟨a, .here a, hm.symm, ha, hD.refl _⟩
    | ok tree => exact htree (hstep tree (by rw [Session.Step.tree?, h]; rfl))

/-- The moments of a whole session. -/
theorem leads_moments {steps : List (Bool × Session.Step)} (ha : D.Inv a.forest)
    (ho : D.Open Forest.root a.forest)
    (hsteps : ∀ step ∈ steps, ∀ tree, step.2.tree? = some tree → D.Admits L tree) (m : Machine)
    (hm : m.forest = a.forest) : ∃ b, D.Leads a (Session.moments.go steps m) b := by
  induction steps generalizing a m with
  | nil => exact ⟨a, .here a⟩
  | cons step steps ih =>
    obtain ⟨hstep, hsteps⟩ := List.forall_mem_cons.mp hsteps
    obtain ⟨b, hpath, hb, hi, hl⟩ := hD.leads_step step.1 ha ho hstep m hm
    obtain ⟨c, hrest⟩ := ih hi (hD.open_later ho hl) hsteps _ hb.symm
    exact ⟨c, hpath.trans hrest⟩

end Respected

theorem Leads.isChain {a b : Moment} {ms : List Moment} (h : D.Leads a ms b) :
    (a :: ms).IsChain D.Next := by
  induction h with
  | here a => exact .singleton a
  | step hn _ _ ih => exact .cons_cons hn ih

theorem Leads.right {a b : Moment} {ms : List Moment} (h : D.Leads a ms b) :
    ∀ c ∈ ms, D.Right c := by
  induction h with
  | here => simp
  | step _ hb _ ih => exact List.forall_mem_cons.mpr ⟨hb, ih⟩

/-- A session of steps with trees that the licence admits keeps to the discipline in all its
moments. -/
theorem Respected.session (hD : D.Respected L) {steps : List (Bool × Session.Step)} {m : Machine}
    (hm : D.Inv m.forest) (ho : D.Open Forest.root m.forest)
    (hsteps : ∀ step ∈ steps, ∀ tree, step.2.tree? = some tree → D.Admits L tree) :
    (Session.moments steps m).IsChain D.Next ∧ ∀ a ∈ Session.moments steps m, D.Right a := by
  obtain ⟨b, h⟩ := hD.leads_moments (a := ⟨.changed, m.forest⟩) hm ho hsteps m rfl
  exact ⟨h.isChain, List.forall_mem_cons.mpr ⟨right_changed hm, h.right⟩⟩

/-- Any tree in any scope in which programs run. -/
def anything (D : Discipline) : Licence where
  May _ id f := D.Open id f
  Free id _ f := D.Open id f
  Own id f := D.Open id f

theorem Stable.respected (hD : D.Stable) : D.Respected D.anything where
  refl := hD.refl
  trans := hD.trans
  next_same := hD.next_same
  open_later := hD.open_later
  held_later := hD.held_later
  may_later := hD.open_later
  free_later := hD.open_later
  may_part h _ := h
  own_later := hD.open_later
  open_own h := h
  free_own _ h := h
  may_inner _ _ hi := hi
  may_body _ _ _ hi := hi
  free_varDecl h _ := h
  free_funcDecl h _ := h
  held_number x _ := hD.held_simple (.number x)
  held_boolean b _ := hD.held_simple (.boolean b)
  held_null _ := hD.held_simple .null
  held_string _ := hD.held_simple (.string _)
  held_array := hD.held_array
  held_step _ h := hD.held_simple (Operator.step?_result h)
  held_apply := by
    intro operator left right id i u v w f _ _ hu _ h
    rcases Operator.apply_result h with hs | rfl
    · exact hD.held_simple hs
    · exact hu
  held_get := by
    intro v i w f hv _ h
    rcases Value.get_result h with hs | ⟨id, items, rfl, hmem⟩
    · exact hD.held_simple hs
    · exact hD.held_array.mp hv w hmem
  held_library := by
    intro native args f hargs m v n h
    rcases gives_libraryCall native args m v n h with hs | hv
    · exact hD.held_simple hs
    · exact hargs v hv
  open_closure := hD.open_closure
  child := hD.child
  define mark ha ho _ hv := hD.define _ mark ha ho hv
  get := hD.get
  set := hD.set
  delete := hD.delete
  capture := by
    intro a id n params body ha ho _
    obtain ⟨hi, hl, hn, hf⟩ := hD.capture ha ho
    exact ⟨hi, hl, hn, fun i name _ => hf i name params body⟩

/-- A session keeps to a stable discipline in all its moments. -/
theorem Stable.session (hD : D.Stable) (steps : List (Bool × Session.Step)) {m : Machine}
    (hm : D.Inv m.forest) (ho : D.Open Forest.root m.forest) :
    (Session.moments steps m).IsChain D.Next ∧ ∀ a ∈ Session.moments steps m, D.Right a :=
  hD.respected.session hm ho fun _ _ _ _ _ _ _ _ _ _ _ _ ho => ho

end Discipline
end Script
