import Script.Proofs.Concatenation
import Script.Proofs.Course
import Script.Proofs.Renaming

/-!
# Names do not matter

Two runs, of a program and of the program with its names changed. Where the renaming leaves the
names of the library and of functions alone, both take the same course: the second one ends with the
renamed values or the renamed fault, and with the renamed scopes.
-/
namespace Script

def Fault.rename (r : Renaming) : Fault → Fault
  | .binding fault => .binding (fault.rename r)
  | .evaluation (.notFunction name) => .evaluation (.notFunction (r name))
  | fault => fault

def Machine.rename (r : Renaming) (m : Machine) : Machine := { m with forest := m.forest.rename r }

/-- The names of the functions that are declared in a tree stay. -/
def Renaming.Fixes (r : Renaming) (n : Node) : Prop := ∀ x ∈ n.functions, r x = x

/-- A value of a program from a source text, with functions whose bodies the renaming fixes. -/
inductive Value.Suited (r : Renaming) : Value → Prop
  | number {t} (h : (Numeral.literal? t).isSome = true) : Suited r (.number t)
  | string (s : String) : Suited r (.string (.text s))
  | boolean (b) : Suited r (.boolean b)
  | null : Suited r .null
  | array (i) {items} (h : ∀ v ∈ items, Suited r v) : Suited r (.array i items)
  | function (i) (x : String) (ps : List String) {ss} (closure) (hs : ∀ s ∈ ss, s.Statement)
      (hr : ∀ s ∈ ss, r.Fixes s) :
      Suited r (.function i (.word x) (.list (ps.map .text)) (.block (.list ss)) closure)
  | native (f) : Suited r (.native f)

/-- A machine on which a renamed program can run along: without debug messages. -/
structure Machine.Suited (r : Renaming) (m : Machine) : Prop where
  quiet : m.debugLevel = 0
  holds : m.Holds (Value.Suited r)

variable {r : Renaming}

namespace Value

theorem Suited.proper {v : Value} (h : v.Suited r) : v.Proper := by
  induction h with
  | number h => exact .number h
  | string s => exact .string s
  | boolean b => exact .boolean b
  | null => exact .null
  | array i _ ih => exact .array i ih
  | function i x ps closure hs _ => exact .function i x ps closure hs
  | native f => exact .native f

/-- The second value is the first one renamed. -/
def Alias (r : Renaming) (v w : Value) : Prop := v.Suited r ∧ w = v.rename r

def Aliases (r : Renaming) (vs ws : List Value) : Prop :=
  (∀ v ∈ vs, v.Suited r) ∧ ws = vs.map (rename r)

theorem alias_simple {v : Value} (hp : v.Proper) (hs : v.Simple) : Alias r v v := by
  cases hs with
  | number x => exact ⟨.number (Numeral.literal?_format x), rfl⟩
  | string c =>
    cases hp with
    | string s => exact ⟨.string s, rfl⟩
  | boolean b => exact ⟨.boolean b, rfl⟩
  | null => exact ⟨.null, rfl⟩
  | strings i cs =>
    have hrename : (cs.map Value.string).map (rename r) = cs.map Value.string := by
      rw [List.map_map]
      exact List.map_congr_left fun c _ => rfl
    refine ⟨?_, by simp [Operator.strings, rename, hrename]⟩
    cases hp with
    | array _ h =>
      refine .array i fun v hv => ?_
      have hvp := h v hv
      obtain ⟨c, -, rfl⟩ := List.mem_map.mp hv
      cases hvp with
      | string s => exact .string s

/-- What comes out renamed and not renamed, and is simple or what went in. -/
theorem alias_of_result {u v : Value} (hu : u.Suited r) (hv : v.Proper) (h : v.Simple ∨ v = u)
    (h' : v.Simple ∨ v = u.rename r) : Alias r v v := by
  rcases h with h | rfl
  · exact alias_simple hv h
  · rcases h' with h | h
    · exact alias_simple hv h
    · exact ⟨hu, h⟩

theorem alias_get {v i : Value} (hv : v.Suited r) (hi : i.Suited r) :
    ∃ w w', v.get i = .ok w ∧ (v.rename r).get (i.rename r) = .ok w' ∧ Alias r w w' := by
  obtain ⟨w, hw, hp⟩ := hv.proper.get hi.proper
  refine ⟨w, w.rename r, hw, by rw [get_rename, hw]; rfl, ?_, rfl⟩
  rcases get_result hw with hs | ⟨id, items, rfl, hmem⟩
  · exact (alias_simple hp hs).1
  · cases hv with
    | array _ h => exact h w hmem

end Value

open Value (Alias Aliases)

theorem Operator.alias_apply {a b : Value} (ha : a.Suited r) (hb : b.Suited r) (i : Identity)
    {operator : String} (ho : operator ∈ strict) :
    (∃ v, apply i operator a b = .ok v ∧ Alias r v v) ∨
      ∃ fault, apply i operator a b = .error fault ∧ fault.rename r = fault := by
  rcases apply_proper ha.proper hb.proper i ho with ⟨v, hv, hp⟩ | ⟨fault, hf, href⟩
  · have hv' : apply i operator (a.rename r) (b.rename r) = .ok v := by rw [apply_rename, hv]
    exact .inl ⟨v, hv, Value.alias_of_result ha hp (apply_result hv) (apply_result hv')⟩
  · refine .inr ⟨fault, hf, ?_⟩
    cases href <;> rfl

namespace Names

/-- The second run ends as the first one, with everything renamed. -/
inductive Follows {α β : Type} (r : Renaming) (R : α → β → Prop) :
    EStateM.Result Fault Machine α → EStateM.Result Fault Machine β → Prop
  | ok {a b m} (hm : m.Suited r) (h : R a b) : Follows r R (.ok a m) (.ok b (m.rename r))
  | error {m} (fault : Fault) (hm : m.Suited r) :
      Follows r R (.error fault m) (.error (fault.rename r) (m.rename r))

/-- The second computation does on renamed machines what the first one does. -/
def Tracks {α β : Type} (r : Renaming) (R : α → β → Prop) (x : Run α) (y : Run β) : Prop :=
  ∀ m : Machine, m.Suited r → Follows r R (x m) (y (m.rename r))

section Steps

variable {α β γ δ : Type} {R : α → β → Prop} {S : γ → δ → Prop}

theorem tracks_pure {a : α} {b : β} (h : R a b) : Tracks r R (pure a) (pure b) :=
  fun _ hm => .ok hm h

theorem tracks_throw {fault fault' : Fault} (h : fault.rename r = fault') :
    Tracks r R (throw fault) (throw fault') := by
  subst h
  exact fun _ hm => .error fault hm

theorem Tracks.bind {x : Run α} {y : Run β} {k : α → Run γ} {l : β → Run δ}
    (hx : Tracks r R x y) (hk : ∀ a b, R a b → Tracks r S (k a) (l b)) :
    Tracks r S (x >>= k) (y >>= l) := by
  intro m hm
  have h := hx m hm
  simp only [Bind.bind, EStateM.bind]
  generalize x m = s, y (m.rename r) = t at h
  cases h with
  | ok hn h => exact hk _ _ h _ hn
  | error fault hn => exact .error fault hn

theorem Tracks.discard {x : Run α} {y : Run β} (hx : Tracks r R x y) :
    Tracks r Eq (Functor.discard x) (Functor.discard y) :=
  hx.bind fun _ _ _ => tracks_pure rfl

theorem tracks_ofExcept {x : Except Fault α} {y : Except Fault β}
    (h : ∃ a b, x = .ok a ∧ y = .ok b ∧ R a b) :
    Tracks r R (Run.ofExcept x) (Run.ofExcept y) := by
  obtain ⟨a, b, rfl, rfl, h⟩ := h
  exact tracks_pure h

theorem tracks_known {x y : Except Fault α} {a : α} (hx : x = .ok a) (hy : y = x) :
    Tracks r (fun b c => a = b ∧ a = c) (Run.ofExcept x) (Run.ofExcept y) :=
  tracks_ofExcept ⟨a, a, hx, hy.trans hx, rfl, rfl⟩

/-- Something that has nothing to do with the scopes, and no fault. -/
theorem tracks_blind {x : Run α} (hx : Blind x) (h : ∀ m, ∃ a n, x m = .ok a n) :
    Tracks r Eq x x := by
  intro m hm
  have hforest := hx.forest m
  have hlevel := hx.debugLevel m
  have hrun : x (m.rename r) = onMachine (·.seen (m.forest.rename r) m.debugLevel id) (x m) :=
    hx m (m.forest.rename r) m.debugLevel id fun _ _ _ => rfl
  obtain ⟨a, n, ha⟩ := h m
  rw [ha] at hforest hlevel hrun
  simp only [machineOf] at hforest hlevel
  have hn : n.Suited r := ⟨hlevel.trans hm.quiet, fun id s hs => hm.holds id s (hforest ▸ hs)⟩
  rw [ha, hrun, ← hforest, ← hlevel]
  exact .ok hn rfl

theorem tracks_freshIdentity : Tracks r Eq Run.freshIdentity Run.freshIdentity :=
  tracks_blind blind_freshIdentity fun _ => ⟨_, _, rfl⟩

theorem tracks_allocate (copies : Option (Nat × Nat)) :
    Tracks r Eq (Run.allocate copies) (Run.allocate copies) := by
  rcases copies with _ | ⟨count, length⟩
  · exact tracks_pure rfl
  · intro m hm
    have hmemory : (m.rename r).ambient = m.ambient := rfl
    rw [allocate_some, allocate_some, hmemory]
    split
    · exact .error (@Fault.outOfMemory count length) hm
    · exact .ok hm rfl

theorem tracks_now : Tracks r Eq Run.now Run.now := tracks_blind blind_now fun _ => ⟨_, _, rfl⟩

theorem tracks_random : Tracks r Eq Run.random Run.random :=
  tracks_blind blind_random fun _ => ⟨_, _, rfl⟩

theorem tracks_record {event : Event} (h : event.isMessage = false) :
    Tracks r Eq (Run.record event) (Run.record event) :=
  tracks_blind (blind_record h) fun _ => ⟨_, _, rfl⟩

theorem tracks_write (s : String) : Tracks r Eq (Run.write (.text s)) (Run.write (.text s)) :=
  tracks_blind (blind_write _) fun _ => ⟨_, _, rfl⟩

theorem tracks_readLine? (s : String) :
    Tracks r Eq (Run.readLine? (.text s)) (Run.readLine? (.text s)) :=
  tracks_blind (blind_readLine? _) fun _ => ⟨_, _, rfl⟩

/-- Without debug messages. -/
theorem tracks_log {l : Nat} (hl : l ≠ 0) (message message' : Unit → Except Fault Node) :
    Tracks r Eq (Run.log l message) (Run.log l message') := by
  intro m hm
  have hquiet : ¬ l ≤ m.debugLevel := by
    have := hm.quiet
    omega
  have hquiet' : ¬ l ≤ (m.rename r).debugLevel := hquiet
  rw [log_apply, log_apply, if_neg hquiet, if_neg hquiet']
  exact .ok hm rfl

theorem tracks_scopes {R : α → α → Prop} {P : α → Prop} {action action' : Forest.Action α}
    {g : α → α}
    (h : ∀ f : Forest, action' (f.rename r) = Forest.renamed r g (action f))
    (hv : Forest.Upholds (Value.Suited r) P action) (hR : ∀ a, P a → R a (g a)) :
    Tracks r R (Run.scopes action) (Run.scopes action') := by
  intro m hm
  have hf : action' (m.rename r).forest = _ := h m.forest
  rcases hv m hm.holds with ⟨a, f, ha, hn, hp⟩ | ⟨fault, ha⟩
  · rw [ha, Forest.renamed] at hf
    simp only [Run.scopes, ha, hf]
    exact .ok (m := { m with forest := f }) ⟨hm.quiet, hn⟩ (hR a hp)
  · rw [ha, Forest.renamed] at hf
    simp only [Run.scopes, ha, hf]
    exact .error (.binding fault) hm

theorem tracks_child (parent : ScopeId) :
    Tracks r Eq (Run.scopes (Forest.child parent)) (Run.scopes (Forest.child parent)) :=
  tracks_scopes (Forest.child_rename · parent) (upholds_child parent) fun _ _ => rfl

variable (scope : ScopeId) (x : String)

theorem tracks_define {v : Value} (hv : v.Suited r) (mark : Mark) :
    Tracks r (Alias r) (Run.scopes (Forest.define scope (.word x) v mark))
      (Run.scopes (Forest.define scope (.word (r x)) (v.rename r) mark)) :=
  tracks_scopes (Forest.define_rename · scope x v mark) (upholds_define scope _ hv mark)
    fun _ h => ⟨h, rfl⟩

theorem tracks_get : Tracks r (Alias r) (Run.scopes (Forest.get scope (.word x)))
    (Run.scopes (Forest.get scope (.word (r x)))) :=
  tracks_scopes (Forest.get_rename · scope x) (upholds_get scope _) fun _ h => ⟨h, rfl⟩

theorem tracks_set {v : Value} (hv : v.Suited r) :
    Tracks r (Alias r) (Run.scopes (Forest.set scope (.word x) v))
      (Run.scopes (Forest.set scope (.word (r x)) (v.rename r))) :=
  tracks_scopes (Forest.set_rename · scope x v) (upholds_set scope _ hv) fun _ h => ⟨h, rfl⟩

theorem tracks_delete : Tracks r (Alias r) (Run.scopes (Forest.delete scope (.word x)))
    (Run.scopes (Forest.delete scope (.word (r x)))) :=
  tracks_scopes (Forest.delete_rename · scope x) (upholds_delete scope _) fun _ h => ⟨h, rfl⟩

theorem tracks_capture :
    Tracks r Eq (Run.onForest (·.capture scope)) (Run.onForest (·.capture scope)) := by
  intro m hm
  have hrun : Run.onForest (·.capture scope) (m.rename r) =
      .ok () (Machine.rename r { m with forest := m.forest.capture scope }) := by
    simp only [Machine.rename, Forest.capture, Forest.captureFrom_rename]
    rfl
  rw [hrun]
  exact .ok ⟨hm.quiet, holds_captureFrom hm.holds _ _⟩ rfl

theorem tracks_within {body body' : ScopeId → Run Unit}
    (hb : ∀ id, Tracks r Eq (body id) (body' id)) :
    Tracks r Eq (Run.within scope body) (Run.within scope body') := by
  intro m hm
  have hchild : (m.rename r).inside scope = (m.inside scope).rename r := by
    simp [Machine.rename, Machine.inside, Forest.rename, Scope.rename, Scope.inside]
  have hsize : (m.rename r).forest.scopes.size = m.forest.scopes.size := Array.size_map
  have h := hb m.forest.scopes.size (m.inside scope) ⟨hm.quiet, holds_child hm.holds scope⟩
  rw [within_apply, within_apply, hchild, hsize]
  generalize body m.forest.scopes.size (m.inside scope) = s,
    body' m.forest.scopes.size ((m.inside scope).rename r) = t at h
  cases h with
  | @ok _ _ n hn h =>
    simp only [onMachine, Machine.rename, ← Forest.leave_rename]
    exact .ok (m := { n with forest := _ }) ⟨hn.quiet, holds_leave hn.holds _ _⟩ h
  | @error n fault hn =>
    simp only [onMachine, Machine.rename, ← Forest.leave_rename]
    exact .error (m := { n with forest := _ }) fault ⟨hn.quiet, holds_leave hn.holds _ _⟩

theorem tracks_one {args : List Value} (ha : ∀ v ∈ args, v.Suited r) :
    Tracks r (Alias r) (Library.one args) (Library.one (args.map (Value.rename r))) := by
  cases args with
  | nil => exact tracks_throw rfl
  | cons v args => exact tracks_pure ⟨ha v (by simp), rfl⟩

/-- A function of the first argument, which does not look at names. -/
theorem tracks_of_one {args : List Value} {k : Value → Except Fault α} {w : α → Value}
    (ha : ∀ v ∈ args, v.Suited r) (hk : ∀ v, k (v.rename r) = k v)
    (hw : ∀ v, v.Suited r → ∃ a, k v = .ok a ∧ Alias r (w a) (w a)) :
    Tracks r (Alias r) (do return w (← Run.ofExcept (k (← Library.one args))))
      (do return w (← Run.ofExcept (k (← Library.one (args.map (Value.rename r)))))) := by
  refine (tracks_one ha).bind ?_
  rintro v _ ⟨hv, rfl⟩
  obtain ⟨a, hka, h⟩ := hw v hv
  rw [hk, hka]
  exact tracks_pure h

theorem tracks_rand (s : String) :
    Tracks r (Alias r) (Library.rand (.text s)) (Library.rand (.text s)) := by
  refine tracks_random.bind ?_
  rintro n _ rfl
  split
  · refine tracks_now.bind ?_
    rintro time _ rfl
    exact tracks_pure (Value.alias_simple (Value.proper_ofDouble _) (.number _))
  · exact tracks_pure ⟨.boolean _, rfl⟩
  · exact tracks_pure ⟨.string _, rfl⟩

theorem alias_null : Alias r .null .null := ⟨.null, rfl⟩

theorem tracks_libraryCall (f : Native) {args : List Value} (ha : ∀ v ∈ args, v.Suited r) :
    Tracks r (Alias r) (Library.call f args) (Library.call f (args.map (Value.rename r))) := by
  have hproper : ∀ v ∈ args, v.Proper := fun v hv => (ha v hv).proper
  obtain ⟨s, hs⟩ := Progress.hint_proper hproper
  have hhint := tracks_known (r := r) hs (Library.hint_rename (r := r) args)
  cases f with
  | print =>
    obtain ⟨texts, ht⟩ := Value.contents_proper hproper
    refine (tracks_known ht (Value.contents_rename args)).bind ?_
    rintro _ _ ⟨rfl, rfl⟩
    refine (tracks_known (Content.line_texts " " texts) rfl).bind ?_
    rintro _ _ ⟨rfl, rfl⟩
    exact (tracks_write _).bind fun _ _ _ => tracks_pure alias_null
  | clear => exact (tracks_record rfl).bind fun _ _ _ => tracks_pure alias_null
  | timestamp =>
    refine tracks_now.bind ?_
    rintro time _ rfl
    exact tracks_pure (Value.alias_simple (Value.proper_ofDouble _) (.number _))
  | rand =>
    refine hhint.bind ?_
    rintro _ _ ⟨rfl, rfl⟩
    exact tracks_rand s
  | number =>
    refine (tracks_one ha).bind ?_
    rintro v _ ⟨hv, rfl⟩
    obtain ⟨w, hw, hp⟩ := Progress.toNumber_proper hv.proper
    have hw' : Library.toNumber (v.rename r) = .ok w := by rw [Library.toNumber_rename, hw]
    exact tracks_ofExcept ⟨w, w, hw, hw', Value.alias_of_result hv hp (Library.toNumber_result hw)
      (Library.toNumber_result hw')⟩
  | string =>
    refine tracks_of_one ha Value.content_rename fun v hv => ?_
    obtain ⟨s, hs⟩ := hv.proper.content
    exact ⟨_, hs, .string s, rfl⟩
  | boolean =>
    refine tracks_of_one ha Library.toBoolean_rename fun v hv => ?_
    obtain ⟨b, hb⟩ := Progress.toBoolean_proper hv.proper
    exact ⟨b, hb, .boolean b, rfl⟩
  | length =>
    refine tracks_of_one ha Library.length_rename fun v hv => ?_
    obtain ⟨n, hn⟩ := Progress.length_proper hv.proper
    exact ⟨n, hn, Value.alias_simple (Value.proper_ofDouble _) (.number _)⟩
  | type =>
    refine (tracks_one ha).bind ?_
    rintro v _ ⟨hv, rfl⟩
    rw [Value.kindName_rename]
    exact tracks_pure ⟨.string _, rfl⟩
  | input =>
    refine hhint.bind ?_
    rintro _ _ ⟨rfl, rfl⟩
    refine (tracks_readLine? s).bind ?_
    rintro line _ rfl
    exact tracks_pure ⟨.string _, rfl⟩

end Steps

section Rules

variable {passes : Nat} {eval : Evaluator}
  (heval : ∀ {n : Node} (scope : ScopeId), n.Statement → r.Fixes n →
    Tracks r (Alias r) (eval n scope) (eval (n.rename r) scope))
  (scope : ScopeId)

theorem fixes_expression {e : Node} (he : e.Expression) : r.Fixes e := by
  cases he <;> exact fun _ h => nomatch h

theorem fixes_declaration {d : Node} (hd : d.Declaration) : r.Fixes d := by
  cases hd <;> exact fun _ h => nomatch h

theorem fixes_list {ss : List Node} : r.Fixes (.list ss) ↔ ∀ s ∈ ss, r.Fixes s := by
  simp only [Renaming.Fixes, Node.functions, Node.functionsAll_eq_flatMap, List.mem_flatMap]
  exact ⟨fun h s hs x hx => h x ⟨s, hs, hx⟩, fun h x ⟨s, hs, hx⟩ => h s hs x hx⟩

include heval

theorem tracks_expression {e : Node} (he : e.Expression) :
    Tracks r (Alias r) (eval e scope) (eval (e.rename r) scope) :=
  heval scope (.expression he) (fixes_expression he)

theorem tracks_all {es : List Node} (h : ∀ e ∈ es, e.Expression) :
    Tracks r (Aliases r) (Evaluate.all eval scope es)
      (Evaluate.all eval scope (es.map (Node.rename r))) := by
  induction es with
  | nil => exact tracks_pure ⟨by simp, rfl⟩
  | cons e es ih =>
    obtain ⟨he, hes⟩ := List.forall_mem_cons.mp h
    refine (tracks_expression heval scope he).bind ?_
    rintro v _ ⟨hv, rfl⟩
    refine (ih hes).bind ?_
    rintro vs _ ⟨hvs, rfl⟩
    exact tracks_pure ⟨List.forall_mem_cons.mpr ⟨hv, hvs⟩, rfl⟩

variable {ss : List Node} (hs : ∀ s ∈ ss, s.Statement) (hr : ∀ s ∈ ss, r.Fixes s)

include hs hr

theorem tracks_sequence :
    Tracks r Eq (Evaluate.sequence eval scope ss)
      (Evaluate.sequence eval scope (ss.map (Node.rename r))) := by
  induction ss with
  | nil => exact tracks_pure rfl
  | cons s ss ih =>
    obtain ⟨hs₁, hs₂⟩ := List.forall_mem_cons.mp hs
    obtain ⟨hr₁, hr₂⟩ := List.forall_mem_cons.mp hr
    exact (heval scope hs₁ hr₁).discard.bind fun _ _ _ => ih hs₂ hr₂

theorem tracks_inOwnScope :
    Tracks r Eq (Evaluate.inOwnScope eval (.list ss) scope)
      (Evaluate.inOwnScope eval (.list (ss.map (Node.rename r))) scope) :=
  tracks_within scope fun inner => tracks_sequence heval inner hs hr

theorem tracks_blockIn :
    Tracks r Eq (Evaluate.blockIn eval (.block (.list ss)) scope)
      (Evaluate.blockIn eval (.block (.list (ss.map (Node.rename r)))) scope) :=
  tracks_inOwnScope heval scope hs hr

theorem tracks_body :
    Tracks r (Alias r) (Evaluate.body eval scope ss)
      (Evaluate.body eval scope (ss.map (Node.rename r))) := by
  induction ss with
  | nil => exact tracks_pure alias_null
  | cons s ss ih =>
    obtain ⟨hs₁, hs₂⟩ := List.forall_mem_cons.mp hs
    obtain ⟨hr₁, hr₂⟩ := List.forall_mem_cons.mp hr
    cases s with
    | returnStmt value => exact heval scope hs₁ hr₁
    | _ => exact (heval scope hs₁ hr₁).discard.bind fun _ _ _ => ih hs₂ hr₂

omit hs hr

theorem tracks_condition {e : Node} (he : e.Expression) :
    Tracks r Eq (Evaluate.condition eval e scope) (Evaluate.condition eval (e.rename r) scope) := by
  refine (tracks_expression heval scope he).bind ?_
  rintro v _ ⟨hv, rfl⟩
  obtain ⟨b, hb⟩ := hv.proper.holds
  have hholds : Tracks r Eq (Run.ofExcept v.holds) (Run.ofExcept (v.rename r).holds) :=
    tracks_ofExcept ⟨b, b, hb, (Value.holds_rename v).trans hb, rfl⟩
  exact hholds

omit heval in
theorem tracks_loop {c c' : Run Bool} {b b' : Run Unit} (hc : Tracks r Eq c c')
    (hb : Tracks r Eq b b') (bound count : Nat) :
    Tracks r Eq (Evaluate.loop c b bound count) (Evaluate.loop c' b' bound count) := by
  induction bound generalizing count with
  | zero => exact tracks_throw rfl
  | succ bound ih =>
    refine hc.bind ?_
    rintro holds _ rfl
    cases holds with
    | false => exact tracks_pure rfl
    | true => exact hb.bind fun _ _ _ => ih (count + 1)

omit heval in
theorem tracks_declare (x : String) (isConst : Node) {v : Value} (hv : v.Suited r) :
    Tracks r (Alias r) (Evaluate.declare (.text x) isConst v scope)
      (Evaluate.declare (.text (r x)) isConst (v.rename r) scope) := by
  refine (tracks_define scope x hv _).discard.bind fun _ _ _ => ?_
  exact (tracks_log (by decide) _ _).bind fun _ _ _ => tracks_pure ⟨hv, rfl⟩

theorem tracks_varDecl {d : Node} (h : d.Declaration) :
    Tracks r (Alias r) (Evaluate.rule passes eval d scope)
      (Evaluate.rule passes eval (d.rename r) scope) := by
  cases h with
  | uninitialized hx => exact tracks_declare scope _ _ .null
  | initialized b hx he =>
    simp only [Node.rename, Evaluate.rule, Evaluate.varDecl,
      Progress.valueIfAny_of_expression scope he, Progress.valueIfAny_of_expression scope he.rename]
    refine (tracks_expression heval scope he).bind ?_
    rintro v _ ⟨hv, rfl⟩
    exact tracks_declare scope _ _ hv

theorem tracks_assign (x : String) {e : Node} (he : e.Expression) :
    Tracks r (Alias r) (Evaluate.assign eval (.text x) e scope)
      (Evaluate.assign eval (.text (r x)) (e.rename r) scope) := by
  refine (tracks_expression heval scope he).bind ?_
  rintro v _ ⟨hv, rfl⟩
  exact tracks_set scope x hv

theorem tracks_ifStmt {e thenBlock thenBlock' elseBlock elseBlock' : Node} (he : e.Expression)
    (h₁ : Tracks r Eq (Evaluate.blockIn eval thenBlock scope)
      (Evaluate.blockIn eval thenBlock' scope))
    (h₂ : Tracks r Eq (Evaluate.blockIfAny eval elseBlock scope)
      (Evaluate.blockIfAny eval elseBlock' scope)) :
    Tracks r (Alias r) (Evaluate.ifStmt eval e thenBlock elseBlock scope)
      (Evaluate.ifStmt eval (e.rename r) thenBlock' elseBlock' scope) := by
  refine (tracks_expression heval scope he).bind ?_
  rintro v _ ⟨hv, rfl⟩
  obtain ⟨b, hb⟩ := hv.proper.holds
  refine (tracks_known hb (Value.holds_rename v)).bind ?_
  rintro _ _ ⟨rfl, rfl⟩
  refine (tracks_log (by decide) _ _).bind fun _ _ _ => ?_
  cases b with
  | true => exact h₁.bind fun _ _ _ => tracks_pure alias_null
  | false => exact h₂.bind fun _ _ _ => tracks_pure alias_null

include hs hr in
theorem tracks_whileStmt {e : Node} (he : e.Expression) :
    Tracks r (Alias r) (Evaluate.whileStmt passes eval e (.block (.list ss)) scope)
      (Evaluate.whileStmt passes eval (e.rename r) (.block (.list (ss.map (Node.rename r))))
        scope) := by
  have hloop := tracks_loop (tracks_condition heval scope he) (tracks_blockIn heval scope hs hr)
    passes 0
  refine hloop.bind fun _ _ _ => ?_
  exact (tracks_log (by decide) _ _).bind fun _ _ _ => tracks_pure alias_null

include hs hr in
theorem tracks_forStmt {i e n : Node} (hi : i.Statement) (hf : r.Fixes i) (he : e.Expression)
    (hn : n.Expression) :
    Tracks r (Alias r) (Evaluate.forStmt passes eval i e n (.block (.list ss)) scope)
      (Evaluate.forStmt passes eval (i.rename r) (e.rename r) (n.rename r)
        (.block (.list (ss.map (Node.rename r)))) scope) := by
  refine Tracks.bind (tracks_within scope fun inner => ?_) fun _ _ _ => tracks_pure alias_null
  refine (heval inner hi hf).discard.bind fun _ _ _ => ?_
  have hpass := (tracks_blockIn heval inner hs hr).bind fun _ _ _ =>
    (tracks_expression heval inner hn).discard
  have hloop := tracks_loop (tracks_condition heval inner he) hpass passes 0
  exact hloop.bind fun _ _ _ => tracks_log (by decide) _ _

omit heval in
include hs hr in
/-- The declaration of a function whose name stays. -/
theorem tracks_funcDecl {x : String} (hx : r x = x) (ps : List String) :
    Tracks r (Alias r)
      (Evaluate.funcDecl (.text x) (.list (ps.map .text)) (.block (.list ss)) scope)
      (Evaluate.funcDecl (.text (r x)) (.list ((ps.map r).map .text))
        (.block (.list (ss.map (Node.rename r)))) scope) := by
  have hname : Tracks r (fun a b => .word x = a ∧ .word (r x) = b) (Evaluate.nameOf (.text x))
      (Evaluate.nameOf (.text (r x))) := tracks_pure ⟨rfl, rfl⟩
  refine (tracks_capture scope).bind fun _ _ _ => hname.bind ?_
  rintro _ _ ⟨rfl, rfl⟩
  refine tracks_freshIdentity.bind ?_
  rintro i _ rfl
  have hf : Value.Suited r
      (.function i (.word x) (.list (ps.map .text)) (.block (.list ss)) scope) :=
    .function i x ps scope hs hr
  have hrename : Value.function i (.word (r x)) (.list ((ps.map r).map .text))
      (.block (.list (ss.map (Node.rename r)))) scope = Value.rename r
        (.function i (.word x) (.list (ps.map .text)) (.block (.list ss)) scope) := by
    simp only [Value.rename, Node.renameParams_texts, Node.rename, Node.renameAll_eq_map, hx]
  rw [hrename]
  refine (tracks_define scope x hf _).discard.bind fun _ _ _ => ?_
  exact (tracks_log (by decide) _ _).bind fun _ _ _ => tracks_pure ⟨hf, rfl⟩

omit heval in
theorem tracks_bindParams (ps : List String) {args : List Value} (ha : ∀ v ∈ args, v.Suited r) :
    Tracks r Eq (Evaluate.bindParams scope (ps.map .text) args)
      (Evaluate.bindParams scope ((ps.map r).map .text) (args.map (Value.rename r))) := by
  induction ps generalizing args with
  | nil => exact tracks_pure rfl
  | cons p ps ih =>
    have hv : (args.headD .null).Suited r := by
      cases args with
      | nil => exact .null
      | cons v args => exact ha v (by simp)
    have hhead : (args.map (Value.rename r)).headD .null = (args.headD .null).rename r := by
      cases args <;> rfl
    have hrest := ih fun v hv => ha v (List.mem_of_mem_tail hv)
    simp only [List.map_cons, Evaluate.bindParams, hhead, List.map_tail] at hrest ⊢
    exact (tracks_define scope p hv _).discard.bind fun _ _ _ => hrest

omit scope in
theorem tracks_invoke (x : String) {f : Value} {args : List Value} (hf : f.Suited r)
    (ha : ∀ v ∈ args, v.Suited r) :
    Tracks r (Alias r) (Evaluate.invoke eval (.word x) f args)
      (Evaluate.invoke eval (.word (r x)) (f.rename r) (args.map (Value.rename r))) := by
  cases hf with
  | native f => exact tracks_libraryCall f ha
  | function i y ps closure hs hr =>
    simp only [Value.rename, Node.renameParams_texts, Node.rename, Node.renameAll_eq_map]
    refine (tracks_child closure).bind ?_
    rintro scope _ rfl
    refine (tracks_bindParams scope ps ha).bind fun _ _ _ => ?_
    exact tracks_body heval scope hs hr
  | _ => exact tracks_throw rfl

theorem tracks_call (x : String) {es : List Node} (he : ∀ e ∈ es, e.Expression) :
    Tracks r (Alias r) (Evaluate.call eval (.text x) (.list es) scope)
      (Evaluate.call eval (.text (r x)) (.list (es.map (Node.rename r))) scope) := by
  refine (tracks_get scope x).bind ?_
  rintro f _ ⟨hf, rfl⟩
  refine (tracks_all heval scope he).bind ?_
  rintro args _ ⟨ha, rfl⟩
  refine (tracks_log (by decide) _ _).bind fun _ _ _ => ?_
  exact tracks_invoke heval x hf ha

theorem tracks_negation {s : String} {e : Node} (hs : s ∈ Grammar.negations) (he : e.Expression) :
    Tracks r (Alias r) (Evaluate.unary eval (.text s) e scope)
      (Evaluate.unary eval (.text s) (e.rename r) scope) := by
  refine (tracks_expression heval scope he).bind ?_
  rintro v _ ⟨hv, rfl⟩
  simp only [Grammar.negations, List.mem_cons, List.not_mem_nil, or_false] at hs
  rcases hs with rfl | rfl
  · obtain ⟨b, hb⟩ := hv.proper.isFalsy
    refine (tracks_known hb (Value.isFalsy_rename v)).bind ?_
    rintro _ _ ⟨rfl, rfl⟩
    exact tracks_pure ⟨.boolean _, rfl⟩
  · cases hv with
    | number h =>
      obtain ⟨x, -, hx⟩ := (Value.Proper.number h).readNumber
      refine (tracks_known hx rfl).bind ?_
      rintro _ _ ⟨rfl, rfl⟩
      exact tracks_pure (Value.alias_simple (Value.proper_ofDouble _) (.number _))
    | _ => exact tracks_pure alias_null

theorem tracks_step {s x : String} (hs : s ∈ Grammar.steps) (hx : Node.ProperName x) :
    Tracks r (Alias r) (Evaluate.unary eval (.text s) (.identifier (.text x)) scope)
      (Evaluate.unary eval (.text s) (.identifier (.text (r x))) scope) := by
  have hstep : Node.plain (.text s) = "++" ∨ Node.plain (.text s) = "--" := by
    simpa [Grammar.steps, Node.plain] using hs
  rw [Course.unary_of_step hstep, Course.unary_of_step hstep]
  refine (tracks_expression heval scope (.identifier hx)).bind ?_
  rintro v _ ⟨hv, rfl⟩
  obtain ⟨next?, hnext, hproper⟩ := Operator.step?_proper hv.proper (Node.plain (.text s))
  refine (tracks_known hnext (Operator.step?_rename v _)).bind ?_
  rintro _ _ ⟨rfl, rfl⟩
  cases next? with
  | none => exact tracks_pure alias_null
  | some next =>
    have hsimple := Value.alias_simple (r := r) (hproper next rfl) (Operator.step?_result hnext)
    have hset := tracks_set scope x hsimple.1
    rw [← hsimple.2] at hset
    exact hset

theorem tracks_lazy {s : String} {a b : Node} (hs : s ∈ ["&&", "||"]) (ha : a.Expression)
    (hb : b.Expression) :
    Tracks r (Alias r) (Evaluate.binary eval (.text s) a b scope)
      (Evaluate.binary eval (.text s) (a.rename r) (b.rename r) scope) := by
  have hlazy : Node.plain (.text s) = "&&" ∨ Node.plain (.text s) = "||" := by
    simpa [Node.plain] using hs
  rw [Course.binary_of_lazy hlazy, Course.binary_of_lazy hlazy]
  refine (tracks_expression heval scope ha).bind ?_
  rintro v _ ⟨hv, rfl⟩
  obtain ⟨falsy, hfalsy⟩ := hv.proper.isFalsy
  refine (tracks_known hfalsy (Value.isFalsy_rename v)).bind ?_
  rintro _ _ ⟨rfl, rfl⟩
  by_cases hd : falsy = decide (Node.plain (.text s) = "&&")
  · rw [if_pos hd, if_pos hd]
    exact tracks_pure ⟨.boolean _, rfl⟩
  · rw [if_neg hd, if_neg hd]
    refine (tracks_expression heval scope hb).bind ?_
    rintro w _ ⟨hw, rfl⟩
    obtain ⟨falsy, hfalsy⟩ := hw.proper.isFalsy
    refine (tracks_known hfalsy (Value.isFalsy_rename w)).bind ?_
    rintro _ _ ⟨rfl, rfl⟩
    exact tracks_pure ⟨.boolean _, rfl⟩

theorem tracks_strict {s : String} {a b : Node} (hs : s ∈ Operator.strict) (ha : a.Expression)
    (hb : b.Expression) :
    Tracks r (Alias r) (Evaluate.binary eval (.text s) a b scope)
      (Evaluate.binary eval (.text s) (a.rename r) (b.rename r) scope) := by
  rw [Progress.binary_strict scope hs, Progress.binary_strict scope hs]
  refine (tracks_expression heval scope ha).bind ?_
  rintro v _ ⟨hv, rfl⟩
  refine (tracks_expression heval scope hb).bind ?_
  rintro w _ ⟨hw, rfl⟩
  rw [Operator.copies?_rename]
  refine (tracks_allocate _).bind fun _ _ _ => tracks_freshIdentity.bind ?_
  rintro i _ rfl
  rw [Operator.apply_rename]
  rcases Operator.alias_apply hv hw i hs with ⟨u, hu, h⟩ | ⟨fault, hf, h⟩
  · rw [hu]
    exact tracks_pure h
  · rw [hf]
    exact tracks_throw h

theorem tracks_arrayLiteral {es : List Node} (he : ∀ e ∈ es, e.Expression) :
    Tracks r (Alias r) (Evaluate.arrayLiteral eval (.list es) scope)
      (Evaluate.arrayLiteral eval (.list (es.map (Node.rename r))) scope) := by
  refine (tracks_all heval scope he).bind ?_
  rintro vs _ ⟨hvs, rfl⟩
  refine tracks_freshIdentity.bind ?_
  rintro i _ rfl
  exact tracks_pure ⟨.array i hvs, by simp [Value.rename]⟩

theorem tracks_index {a i : Node} (ha : a.Expression) (hi : i.Expression) :
    Tracks r (Alias r) (Evaluate.index eval a i scope)
      (Evaluate.index eval (a.rename r) (i.rename r) scope) := by
  refine (tracks_expression heval scope ha).bind ?_
  rintro v _ ⟨hv, rfl⟩
  refine (tracks_expression heval scope hi).bind ?_
  rintro w _ ⟨hw, rfl⟩
  exact tracks_ofExcept (Value.alias_get hv hw)

end Rules

section Evaluation

variable {passes : Nat} {eval : Evaluator}
  (heval : ∀ {n : Node} (scope : ScopeId), n.Statement → r.Fixes n →
    Tracks r (Alias r) (eval n scope) (eval (n.rename r) scope))
  (scope : ScopeId)

include heval

theorem tracks_rule_expression {e : Node} (he : e.Expression) :
    Tracks r (Alias r) (Evaluate.rule passes eval e scope)
      (Evaluate.rule passes eval (e.rename r) scope) := by
  cases he with
  | @number s hs =>
    obtain ⟨x, hx⟩ := Value.readNumber_of_isNumeral hs
    refine (tracks_known hx rfl).bind ?_
    rintro _ _ ⟨rfl, rfl⟩
    exact tracks_pure (Value.alias_simple (Value.proper_ofDouble x) (.number _))
  | string => exact tracks_pure ⟨.string _, rfl⟩
  | boolean b => exact tracks_pure ⟨.boolean _, rfl⟩
  | null => exact tracks_pure alias_null
  | identifier => exact tracks_get scope _
  | assign _ he => exact tracks_assign heval scope _ he
  | negation hs he => exact tracks_negation heval scope hs he
  | step hs hx => exact tracks_step heval scope hs hx
  | @binary s a b hs ha hb =>
    have hop : ∀ s ∈ Node.binaryOperators, s ∈ ["&&", "||"] ∨ s ∈ Operator.strict := by decide
    rcases hop s hs with hs | hs
    · exact tracks_lazy heval scope hs ha hb
    · exact tracks_strict heval scope hs ha hb
  | call _ he =>
    simp only [Node.rename, Node.renameAll_eq_map]
    exact tracks_call heval scope _ he
  | array he =>
    simp only [Node.rename, Node.renameAll_eq_map]
    exact tracks_arrayLiteral heval scope he
  | index ha hi => exact tracks_index heval scope ha hi

theorem tracks_rule {n : Node} (hn : n.Statement) (hr : r.Fixes n) :
    Tracks r (Alias r) (Evaluate.rule passes eval n scope)
      (Evaluate.rule passes eval (n.rename r) scope) := by
  cases hn with
  | expression he => exact tracks_rule_expression heval scope he
  | declaration hd => exact tracks_varDecl heval scope hd
  | block hs =>
    simp only [Node.rename, Node.renameAll_eq_map]
    exact (tracks_inOwnScope heval scope hs (fixes_list.mp hr)).bind fun _ _ _ =>
      tracks_pure alias_null
  | empty => exact tracks_pure alias_null
  | function _ _ hs =>
    simp only [Node.rename, Node.renameAll_eq_map, Node.renameParams_texts]
    obtain ⟨hx, hr⟩ := List.forall_mem_append.mp hr
    exact tracks_funcDecl scope hs (fixes_list.mp hr) (hx _ (by simp [Node.text?])) _
  | ifThen he hs =>
    obtain ⟨hr, -⟩ := List.forall_mem_append.mp hr
    simp only [Node.rename, Node.renameAll_eq_map]
    exact tracks_ifStmt heval scope he (tracks_blockIn heval scope hs (fixes_list.mp hr))
      (tracks_pure rfl)
  | ifElse he hs hs' =>
    obtain ⟨hr, hr'⟩ := List.forall_mem_append.mp hr
    simp only [Node.rename, Node.renameAll_eq_map]
    exact tracks_ifStmt heval scope he (tracks_blockIn heval scope hs (fixes_list.mp hr))
      (tracks_blockIn heval scope hs' (fixes_list.mp hr'))
  | «while» he hs =>
    simp only [Node.rename, Node.renameAll_eq_map]
    exact tracks_whileStmt heval scope hs (fixes_list.mp hr) he
  | «for» hi he hn hs =>
    simp only [Node.rename, Node.renameAll_eq_map]
    rcases hi with hi | hi
    · exact tracks_forStmt heval scope hs (fixes_list.mp hr) (.declaration hi)
        (fixes_declaration hi) he hn
    · exact tracks_forStmt heval scope hs (fixes_list.mp hr) (.expression hi)
        (fixes_expression hi) he hn
  | returnNothing => exact tracks_pure alias_null
  | returnValue he =>
    simp only [Node.rename, Evaluate.rule, Progress.valueIfAny_of_expression scope he,
      Progress.valueIfAny_of_expression scope he.rename]
    exact tracks_expression heval scope he
  | delete => exact tracks_delete scope _

end Evaluation

/-- Evaluation of statements, by induction on the depth. -/
theorem tracks_evaluate (passes depth : Nat) {n : Node} (scope : ScopeId) (hn : n.Statement)
    (hr : r.Fixes n) :
    Tracks r (Alias r) (evaluate passes depth n scope)
      (evaluate passes depth (n.rename r) scope) := by
  induction depth generalizing n scope with
  | zero => exact tracks_throw rfl
  | succ depth ih => exact tracks_rule (fun scope hn hr => ih scope hn hr) scope hn hr

end Names

namespace Session

def StepFault.rename (r : Renaming) : StepFault → StepFault
  | .run fault => .run (fault.rename r)
  | fault => fault

def renamed (r : Renaming) (o : Outcome) : Outcome :=
  ((o.1.map (·.map (Value.rename r))).mapError (StepFault.rename r), o.2.rename r)

open Names

theorem tracks_statements (echo : Bool) {ns : List Node} (hn : ∀ n ∈ ns, n.Statement)
    (hr : ∀ n ∈ ns, r.Fixes n) {values : List Value} (hv : ∀ v ∈ values, v.Suited r) :
    Tracks r (Aliases r) (statements echo values ns)
      (statements echo (values.map (Value.rename r)) (ns.map (Node.rename r))) := by
  induction ns generalizing values with
  | nil => exact tracks_pure ⟨by simpa using hv, by simp⟩
  | cons n ns ih =>
    obtain ⟨hn₁, hn₂⟩ := List.forall_mem_cons.mp hn
    obtain ⟨hr₁, hr₂⟩ := List.forall_mem_cons.mp hr
    refine (tracks_evaluate passLimit depthLimit Forest.root hn₁ hr₁).bind ?_
    rintro v _ ⟨hsuited, rfl⟩
    have hrest := ih hn₂ hr₂ (List.forall_mem_cons.mpr ⟨hsuited, hv⟩)
    rw [Value.isNull_rename, Value.content_rename]
    cases echo && !v.isNull with
    | false => exact hrest
    | true =>
      obtain ⟨s, hs⟩ := hsuited.proper.content
      refine (tracks_known hs rfl).bind ?_
      rintro _ _ ⟨rfl, rfl⟩
      exact (tracks_write s).bind fun _ _ _ => hrest

/-- A step with the renamed program. -/
theorem source_rename (echo : Bool) {text text' : String} {p : Node}
    (ht : Node.ofSource text = .ok p) (hr : r.Fixes p)
    (ht' : Node.ofSource text' = .ok (p.rename r)) {m : Machine} (hm : m.Suited r) :
    source echo text' (m.rename r) = renamed r (source echo text m) ∧
      (source echo text m).2.Suited r := by
  obtain ⟨hs⟩ := Node.wellFormed_of_ofSource ht
  rename_i ss
  have h : Follows r (Aliases r) (statements echo [] ss m)
      (statements echo [] (ss.map (Node.rename r)) (m.rename r)) :=
    tracks_statements echo hs (fixes_list.mp hr) (by simp) m hm
  simp only [Node.rename, Node.renameAll_eq_map] at ht'
  simp only [source, ht, ht', tree_list]
  generalize statements echo [] ss m = a,
    statements echo [] (ss.map (Node.rename r)) (m.rename r) = b at h
  cases h with
  | ok hn hv =>
    obtain ⟨-, rfl⟩ := hv
    exact ⟨rfl, hn⟩
  | error fault hn => exact ⟨rfl, hn⟩

/-- The second text reads as the program of the first one with its names changed, but for those of
functions. -/
def Retells (r : Renaming) (text text' : String) : Prop :=
  ∃ p, Node.ofSource text = .ok p ∧ r.Fixes p ∧ Node.ofSource text' = .ok (p.rename r)

theorem outcomes_rename {steps steps' : List (Bool × String)}
    (h : List.Forall₂ (fun a b => a.1 = b.1 ∧ Retells r a.2 b.2) steps steps') {m : Machine}
    (hm : m.Suited r) :
    outcomes (sources steps') (m.rename r) = (outcomes (sources steps) m).map (renamed r) := by
  induction h generalizing m with
  | nil => rfl
  | @cons a b steps steps' hab _ ih =>
    obtain ⟨hecho, p, ht, hr, ht'⟩ := hab
    obtain ⟨hrun, hn⟩ := source_rename a.1 ht hr ht' hm
    have hrest := ih hn
    simp only [sources, List.map_cons, outcomes, Step.run, ← hecho, hrun] at hrest ⊢
    exact congrArg _ hrest

theorem alias_library : ∀ b ∈ Library.bindings, Alias r b.value b.value := by
  refine Library.forall_bindings (P := fun v => Alias r v v) (fun x => ?_)
    (fun s => ⟨.string s, rfl⟩) fun f => ⟨.native f, rfl⟩
  exact Value.alias_simple (Value.proper_ofDouble x) (.number x)

/-- Nothing changes on a machine on which nothing has run yet. -/
theorem rename_fresh (hlib : ∀ b ∈ Library.bindings, b.name.rename r = b.name) (ambient : Ambient)
    (inputs : List String) :
    (Machine.fresh ambient 0 inputs).rename r = Machine.fresh ambient 0 inputs ∧
      (Machine.fresh ambient 0 inputs).Suited r := by
  have hroot : Library.root.rename r = Library.root := by
    have hbindings : Library.bindings.map (·.rename r) = Library.bindings := by
      refine (List.map_congr_left fun b hb => ?_).trans (List.map_id _)
      rw [Binding.rename, hlib b hb, ← (alias_library b hb).2, id]
    simp only [Library.root, Scope.rename, hbindings]
  refine ⟨?_, rfl, fun id s hs b hb => ?_⟩
  · simp [Machine.rename, Machine.fresh, Forest.rename, hroot]
  · obtain ⟨-, rfl⟩ := Library.eq_root_of_scope? hs
    exact (alias_library b hb).1

/-- The second diagnosis is the first one with the name in it changed. -/
def Requotes (r : Renaming) (d d' : Diagnosis) : Prop :=
  d'.kind = d.kind ∧ d'.line? = d.line? ∧
    (d'.text = d.text ∨ ∃ before name behind, d.text = before ++ name ++ behind ∧
      d'.text = before ++ r name ++ behind)

theorem requotes_same (d : Diagnosis) : Requotes r d d := ⟨rfl, rfl, .inl rfl⟩

theorem requotes_behind (kind before name : String) :
    Requotes r ⟨kind, before ++ name, none⟩ ⟨kind, before ++ r name, none⟩ :=
  ⟨rfl, rfl, .inr ⟨before, name, "", by rw [String.append_empty], by rw [String.append_empty]⟩⟩

theorem requotes_ahead (kind name behind : String) :
    Requotes r ⟨kind, name ++ behind, none⟩ ⟨kind, r name ++ behind, none⟩ :=
  ⟨rfl, rfl, .inr ⟨"", name, behind, by rw [String.empty_append], by rw [String.empty_append]⟩⟩

theorem requotes_rename (fault : Fault) :
    Option.Rel (Requotes r) fault.diagnosis? (fault.rename r).diagnosis? := by
  cases fault with
  | binding fault => cases fault <;> exact .some (requotes_behind _ _ _)
  | evaluation fault =>
    cases fault with
    | notFunction name => exact .some (requotes_ahead _ _ _)
    | _ => exact .some (requotes_same _)
  | _ => exact .none

/-- Names do not matter. A session of programs with other names, those of the library and of
functions aside, comes to the renamed outcomes: the same happens, the values and the scopes are the
renamed ones, and a fault is the same with another name in its text. -/
theorem names_do_not_matter (r : Renaming)
    (hlib : ∀ b ∈ Library.bindings, b.name.rename r = b.name) (ambient : Ambient)
    (inputs : List String) :
    (∀ text p, Node.ofSource text = .ok p →
      Node.ofSource (Printer.text (p.rename r)) = .ok (p.rename r)) ∧
    (∀ steps steps' : List (Bool × String),
      List.Forall₂ (fun a b => a.1 = b.1 ∧ Retells r a.2 b.2) steps steps' →
      outcomes (sources steps') (Machine.fresh ambient 0 inputs) =
        (outcomes (sources steps) (Machine.fresh ambient 0 inputs)).map (renamed r)) ∧
    ∀ fault : Fault, Option.Rel (Requotes r) fault.diagnosis? (fault.rename r).diagnosis? := by
  obtain ⟨hfresh, hsuited⟩ := rename_fresh hlib ambient inputs
  refine ⟨fun text p hp => ?_, fun steps steps' h => ?_, requotes_rename⟩
  · exact Node.ofSource_text (Node.wellFormed_of_ofSource hp).rename
  · rw [← outcomes_rename h hsuited, hfresh]

def swapped : Renaming where
  image x := if x = "a" then "b" else if x = "b" then "a" else x
  proper := by
    intro x hx
    have ha : Node.ProperName "a" := by decide
    have hb : Node.ProperName "b" := by decide
    split_ifs
    · exact hb
    · exact ha
    · exact hx
  distinct := by
    intro x y _ _ h
    grind

theorem swapped_library : ∀ b ∈ Library.bindings, b.name.rename swapped = b.name := by
  have hwords : Library.bindings.map (·.name) =
      (["PI", "E", "version"] ++ Native.all.map Native.name).map Name.word := rfl
  have hfixed : ∀ x ∈ ["PI", "E", "version"] ++ Native.all.map Native.name, swapped x = x := by
    decide
  intro b hb
  have hmem : b.name ∈ Library.bindings.map (·.name) := List.mem_map_of_mem hb
  rw [hwords] at hmem
  obtain ⟨x, hx, hname⟩ := List.mem_map.mp hmem
  rw [← hname, Name.rename, hfixed x hx]

/-- A declaration and an undefined variable, with their names swapped. -/
theorem names_do_not_matter_swapped :
    let first := outcomes (sources [(false, "var a=1;"), (true, "b;")])
      (Machine.fresh (.seeded 0 0) 0 [])
    let second := outcomes (sources [(false, "var b=1;"), (true, "a;")])
      (Machine.fresh (.seeded 0 0) 0 [])
    second = first.map (renamed swapped) ∧
      second.map Progress.fault? = [none, some (.run (.binding (.undefined "a")))] := by
  have hone : Token.IsNumeral "1".toList := .whole (by decide) (List.all_eq_true.mp (by decide))
  have hdecl : Node.Statement
      (.varDecl (.text "a") (.numberLiteral (.text "1")) (.boolean false)) :=
    .declaration (.initialized false (by decide) (.number hone))
  have hname : Node.Statement (.identifier (.text "b")) := .expression (.identifier (by decide))
  have hp : Node.WellFormed (.program (.list [_])) := .program (by simpa using hdecl)
  have hq : Node.WellFormed (.program (.list [_])) := .program (by simpa using hname)
  have hp' : Node.ofSource "var b=1;" = _ :=
    Node.ofSource_of_tokens (hp.rename (r := swapped)) (by decide +kernel)
  have hq' : Node.ofSource "a;" = _ :=
    Node.ofSource_of_tokens (hq.rename (r := swapped)) (by decide +kernel)
  have hdeclared : Retells swapped "var a=1;" "var b=1;" :=
    ⟨_, Node.ofSource_of_tokens hp (by decide +kernel),
      by simp [Renaming.Fixes, Node.functions], hp'⟩
  have hused : Retells swapped "b;" "a;" :=
    ⟨_, Node.ofSource_of_tokens hq (by decide +kernel),
      by simp [Renaming.Fixes, Node.functions], hq'⟩
  refine ⟨(names_do_not_matter swapped swapped_library (.seeded 0 0) []).2.1 _ _
    (.cons ⟨rfl, hdeclared⟩ (.cons ⟨rfl, hused⟩ .nil)), ?_⟩
  simp only [sources, List.map_cons, List.map_nil, outcomes, Step.run, source, hp', hq']
  decide +kernel

end Session
end Script
