import Script.Proofs.Ties
import Script.Proofs.Canonical
import Script.Proofs.Depths

/-!
# Runs that follow each other

Two runs on machines that differ in nothing but their forests, which are alike. The trees they run
may differ, too. Each rule of evaluation is shown to end alike in both runs if its parts do: with
values that are alike or with the same fault, after the same events. One of the two runs may be
excused if it meets the bound on the depth, since the trees may nest differently.
-/
namespace Script

open Forest

def Machine.over (m : Machine) (f : Forest) : Machine := { m with forest := f }

/-- Which of two runs is excused if it meets the bound on the depth. -/
inductive Slack where
  | none | first | second

def Slack.Excuses {α : Type} : Slack → EStateM.Result Fault Machine α →
    EStateM.Result Fault Machine α → Prop
  | .none, _, _ => False
  | .first, r, _ => TooDeep r
  | .second, _, r' => TooDeep r'

/-- How two runs are compared: how the bodies of functions may differ, which run is excused, and
the debug level. -/
structure Comparison where
  bodies : Node → Node → Prop
  slack : Slack
  level : Nat

namespace Comparison

section

variable (C : Comparison)

/-- Two runs end alike, in a matching that has grown from `W`. -/
inductive Ends {α : Type} (W : Matching) (P : Matching → α → α → Prop) :
    EStateM.Result Fault Machine α → EStateM.Result Fault Machine α → Prop
  | ok {V a a' f f'} (m : Machine) (hm : m.debugLevel = C.level) (hV : W ≤ V)
      (ht : Tie C.bodies V f f') (ha : P V a a') : Ends W P (.ok a (m.over f)) (.ok a' (m.over f'))
  | error {V f f'} (fault) (m : Machine) (hm : m.debugLevel = C.level) (hV : W ≤ V)
      (ht : Tie C.bodies V f f') : Ends W P (.error fault (m.over f)) (.error fault (m.over f'))
  | excused {r r'} (h : C.slack.Excuses r r') : Ends W P r r'

/-- Computations that end alike whenever they begin alike, from the matching `W` on. -/
def Follows {α : Type} (W : Matching) (P : Matching → α → α → Prop) (x x' : Run α) : Prop :=
  ∀ V, W ≤ V → ∀ f f', Tie C.bodies V f f' → ∀ m : Machine, m.debugLevel = C.level →
    C.Ends V P (x (m.over f)) (x' (m.over f'))

def Like (W : Matching) (v v' : Value) : Prop := v.Like C.bodies W v'

end

abbrev Any {α : Type} (_ : Matching) (_ _ : α) : Prop := True

abbrev Same {α : Type} (_ : Matching) (a a' : α) : Prop := a = a'

variable {C : Comparison} {W V : Matching} {α β : Type} {P : Matching → α → α → Prop}
  {Q : Matching → β → β → Prop}

theorem Ends.later {r r' : EStateM.Result Fault Machine α} (h : C.Ends V P r r') (hV : W ≤ V) :
    C.Ends W P r r' := by
  cases h with
  | ok m hm hV' ht ha => exact .ok m hm (hV.trans hV') ht ha
  | error fault m hm hV' ht => exact .error fault m hm (hV.trans hV') ht
  | excused h => exact .excused h

theorem Follows.mono {x x' : Run α} (h : C.Follows W P x x') (hV : W ≤ V) :
    C.Follows V P x x' :=
  fun _ hU => h _ (hV.trans hU)

theorem Follows.imp {P' : Matching → α → α → Prop} {x x' : Run α} (h : C.Follows W P x x')
    (himp : ∀ {V a a'}, P V a a' → P' V a a') : C.Follows W P' x x' := by
  intro V hV f f' ht m hm
  have hends := h _ hV _ _ ht m hm
  generalize x (m.over f) = r, x' (m.over f') = r' at hends
  cases hends with
  | ok n hn hV' ht' ha => exact .ok n hn hV' ht' (himp ha)
  | error fault n hn hV' ht' => exact .error fault n hn hV' ht'
  | excused h => exact .excused h

theorem follows_pure {a a' : α} (ha : ∀ {V}, W ≤ V → P V a a') :
    C.Follows W P (pure a) (pure a') :=
  fun _ hV _ _ ht m hm => .ok m hm (le_refl _) ht (ha hV)

theorem follows_throw (fault : Fault) : C.Follows W P (throw fault) (throw fault) :=
  fun _ _ _ _ ht m hm => .error fault m hm (le_refl _) ht

theorem excuses_bind {slack : Slack} {x x' : Run α} {k k' : α → Run β} {m m' : Machine}
    (h : slack.Excuses (x m) (x' m')) : slack.Excuses ((x >>= k) m) ((x' >>= k') m') := by
  cases slack with
  | none => exact h
  | first | second =>
    obtain ⟨n, hn⟩ := h
    exact ⟨n, by simp only [bind, EStateM.bind, hn]⟩

/-- One computation after another. -/
theorem follows_bind {x x' : Run α} {k k' : α → Run β} (hx : C.Follows W P x x')
    (hk : ∀ {V a a'}, W ≤ V → P V a a' → C.Follows V Q (k a) (k' a')) :
    C.Follows W Q (x >>= k) (x' >>= k') := by
  intro V hV f f' ht m hm
  have h := hx _ hV _ _ ht m hm
  have hexcused := @excuses_bind α β C.slack x x' k k' (m.over f) (m.over f')
  simp only [bind, EStateM.bind] at hexcused ⊢
  generalize x (m.over f) = r, x' (m.over f') = r' at h hexcused
  cases h with
  | ok n hn hV' ht' ha => exact (hk (hV.trans hV') ha _ (le_refl _) _ _ ht' n hn).later hV'
  | error fault n hn hV' ht' => exact .error fault n hn hV' ht'
  | excused h => exact .excused (hexcused h)

theorem follows_discard {x x' : Run α} (hx : C.Follows W P x x') :
    C.Follows W Any (discard x) (discard x') :=
  follows_bind hx fun _ _ => follows_pure fun _ => trivial

theorem follows_ofExcept {x x' : Except Fault α} (h : ∀ {V}, W ≤ V → Agree (P V) x x') :
    C.Follows W P (Run.ofExcept x) (Run.ofExcept x') := by
  intro V hV f f' ht m hm
  cases h hV with
  | ok ha => exact .ok m hm (le_refl _) ht ha
  | error fault => exact .error fault m hm (le_refl _) ht

/-- The same result in both runs, which is known. -/
theorem follows_known (x : Except Fault α) :
    C.Follows W (fun _ a a' => a = a' ∧ x = .ok a) (Run.ofExcept x) (Run.ofExcept x) := by
  refine follows_ofExcept fun _ => ?_
  cases x with
  | ok a => exact .ok ⟨rfl, rfl⟩
  | error fault => exact .error fault

theorem follows_lift {x x' : Except Fault α} (h : x = x') :
    C.Follows W Same (Run.ofExcept x) (Run.ofExcept x') :=
  h ▸ (follows_known x).imp And.left

/-- A computation that has nothing to do with the scopes. -/
theorem follows_blind {G : α → Prop} {x : Run α} (hx : Blind x) (hg : Gives G x)
    (hP : ∀ {V a}, G a → P V a a) : C.Follows W P x x := by
  intro V _ f f' ht m hm
  have hview : Additive id := fun _ _ _ => rfl
  have h : x (m.over f) = _ := hx m f m.debugLevel id hview
  have h' : x (m.over f') = _ := hx m f' m.debugLevel id hview
  rw [h, h']
  cases hr : x m with
  | ok a n => exact .ok { n with debugLevel := m.debugLevel } hm (le_refl _) ht (hP (hg m a n hr))
  | error fault n => exact .error fault { n with debugLevel := m.debugLevel } hm (le_refl _) ht

theorem follows_same {x : Run α} (hx : Blind x) : C.Follows W Same x x :=
  follows_blind hx (gives_any x) fun _ => rfl

theorem follows_log {level : Nat} {message message' : Unit → Except Fault Node}
    (h : message () = message' ()) :
    C.Follows W Any (Run.log level message) (Run.log level message') := by
  intro V _ f f' ht m hm
  rw [log_apply, log_apply, h]
  by_cases hlevel : level ≤ m.debugLevel
  · simp only [Machine.over, hlevel, if_true]
    cases message' () >>= Content.written with
    | ok s => exact .ok { m with events := m.events.push (.logged s) } hm (le_refl _) ht trivial
    | error fault => exact .error fault m hm (le_refl _) ht
  · simp only [Machine.over, hlevel, if_false]
    exact .ok m hm (le_refl _) ht trivial

/-- Below their level two messages may differ. -/
theorem follows_silence {level : Nat} (hlevel : C.level < level)
    (message message' : Unit → Except Fault Node) :
    C.Follows W Any (Run.log level message) (Run.log level message') := by
  intro V _ f f' ht m hm
  have hno : ¬ level ≤ m.debugLevel := by omega
  rw [log_apply, log_apply, Machine.over, Machine.over, if_neg hno, if_neg hno]
  exact .ok m hm (le_refl _) ht trivial

theorem follows_scopes {action action' : Action α}
    (h : ∀ {V}, W ≤ V → ∀ {f f'}, Tie C.bodies V f f' →
      Acts C.bodies V P (action f) (action' f')) :
    C.Follows W P (Run.scopes action) (Run.scopes action') := by
  intro V hV f f' ht m hm
  have hacts := h hV ht
  simp only [Run.scopes, Machine.over]
  generalize action f = r, action' f' = r' at hacts
  cases hacts with
  | ok hV' ht' ha => exact .ok m hm hV' ht' ha
  | error fault ht' => exact .error (.binding fault) m hm (le_refl _) ht'

theorem follows_capture {a b : ScopeId} (hab : W.pair a b) :
    C.Follows W Any (Run.onForest (·.capture a)) (Run.onForest (·.capture b)) :=
  fun _ hV _ _ ht m hm => .ok m hm (le_refl _) (ht.capture (Matching.pair_mono hV hab)) trivial

/-- Something that is done with the scopes at the end of both runs, also after a fault. -/
theorem Ends.afterwards {r r' : EStateM.Result Fault Machine α} (h : C.Ends W P r r')
    {g g' : Machine → Machine}
    (hg : ∀ {V f f'} (n : Machine), W ≤ V → Tie C.bodies V f f' →
      ∃ k k', g (n.over f) = n.over k ∧ g' (n.over f') = n.over k' ∧ Tie C.bodies V k k') :
    C.Ends W P (onMachine g r) (onMachine g' r') := by
  cases h with
  | ok n hn hV ht ha =>
    obtain ⟨k, k', hk, hk', ht'⟩ := hg n hV ht
    rw [onMachine, onMachine, hk, hk']
    exact .ok n hn hV ht' ha
  | error fault n hn hV ht =>
    obtain ⟨k, k', hk, hk', ht'⟩ := hg n hV ht
    rw [onMachine, onMachine, hk, hk']
    exact .error fault n hn hV ht'
  | excused h =>
    refine .excused ?_
    generalize C.slack = slack at h ⊢
    cases slack with
    | none => exact h
    | first | second =>
      obtain ⟨n, rfl⟩ := h
      exact ⟨_, rfl⟩

/-- Something in a scope of its own, in both runs. -/
theorem follows_within {a b : ScopeId} {body body' : ScopeId → Run Unit} (hab : W.Sees a b)
    (hbody : ∀ {V c c'}, W ≤ V → V.pair c c' → C.Follows V Any (body c) (body' c')) :
    C.Follows W Any (Run.within a body) (Run.within b body') := by
  intro V hV f f' ht m hm
  have hlink := V.le_link f.scopes.size f'.scopes.size
  have hpair : (V.link f.scopes.size f'.scopes.size).pair f.scopes.size f'.scopes.size :=
    .inr ⟨rfl, rfl⟩
  have h := hbody (hV.trans hlink) hpair _ (le_refl _) _ _ (ht.link (hab.mono hV)) m hm
  rw [within_apply, within_apply]
  refine (h.afterwards fun n hU ht' => ?_).later hlink
  exact ⟨_, _, rfl, rfl, ht'.leave (Matching.pair_mono hU hpair) n.discards⟩

/-- Something in a blank scope of its own, in the second run only. -/
theorem follows_within_blank {a b : ScopeId} {x : Run Unit} {body : ScopeId → Run Unit}
    (hab : W.Sees a b)
    (hbody : ∀ {V c}, W ≤ V → V.blank c b → C.Follows V Any x (body c)) :
    C.Follows W Any x (Run.within b body) := by
  intro V hV f f' ht m hm
  have hpass := V.le_pass f'.scopes.size b
  have hblank : (V.pass f'.scopes.size b).blank f'.scopes.size b := .inr ⟨rfl, rfl⟩
  have hlt := (ht.sees_lt_size (hab.mono hV)).2
  have h := hbody (hV.trans hpass) hblank _ (le_refl _) _ _ (ht.pass hlt) m hm
  have hid : x (m.over f) = onMachine id (x (m.over f)) := by
    cases x (m.over f) <;> rfl
  rw [within_apply, hid]
  refine (h.afterwards fun n hU ht' => ?_).later hpass
  exact ⟨_, _, rfl, rfl, ht'.leave_blank (Matching.blank_mono hU hblank) n.discards⟩

theorem Like.mono {v v' : Value} (h : C.Like W v v') (hV : W ≤ V) : C.Like V v v' :=
  Value.Like.mono hV h

theorem like_all_mono {vs vs' : List Value} (h : List.Forall₂ (C.Like W) vs vs') (hV : W ≤ V) :
    List.Forall₂ (C.Like V) vs vs' :=
  h.imp fun _ _ hv => hv.mono hV

theorem follows_value {v v' : Value} (h : C.Like W v v') : C.Follows W C.Like (pure v) (pure v') :=
  follows_pure h.mono

theorem follows_made {v : Value} (h : v.Simple) : C.Follows W C.Like (pure v) (pure v) :=
  follows_value h.like

/-- A value that has nothing in it that could differ. -/
def Rigid (C : Comparison) (v : Value) : Prop := ∀ W, C.Like W v v

theorem rigid_of_simple {v : Value} (h : v.Simple) : C.Rigid v := fun _ => h.like

theorem toNumber_number {v w : Value} (h : Library.toNumber v = .ok w) :
    ∃ text, w = .number text := by
  unfold Library.toNumber at h
  split at h
  case h_6 => cases h
  all_goals exact ⟨_, (Except.ok.inj h).symm⟩

/-- A library function makes its value or hands a number through. -/
theorem gives_rigid (f : Native) (args : List Value) : Gives C.Rigid (Library.call f args) := by
  have hmade {γ : Type} (x : Run γ) {w : γ → Value} (hw : ∀ a, (w a).Simple) :
      Gives C.Rigid (do return w (← x)) :=
    (gives_any x).bind fun a _ => gives_pure (rigid_of_simple (hw a))
  cases f with
  | print =>
    refine (gives_any _).bind fun _ _ => (gives_any _).bind fun _ _ => ?_
    exact hmade _ fun _ => .null
  | clear => exact hmade _ fun _ => .null
  | timestamp => exact hmade _ fun _ => .number _
  | rand =>
    refine (gives_any _).bind fun kind _ => (gives_any _).bind fun n _ => ?_
    split
    · exact hmade _ fun _ => .number _
    · exact gives_pure (rigid_of_simple (.boolean _))
    · exact gives_pure (rigid_of_simple (.string _))
  | number =>
    refine (gives_any _).bind fun v _ => gives_ofExcept fun w hw => ?_
    obtain ⟨text, rfl⟩ := toNumber_number hw
    exact fun _ => .number text
  | string => exact (gives_any _).bind fun _ _ => hmade _ fun _ => .string _
  | boolean => exact (gives_any _).bind fun _ _ => hmade _ fun _ => .boolean _
  | length => exact (gives_any _).bind fun _ _ => hmade _ fun _ => .number _
  | type => exact hmade _ fun _ => .string _
  | input => exact (gives_any _).bind fun _ _ => hmade _ fun _ => .string _

theorem follows_libraryCall (f : Native) {args args' : List Value}
    (h : List.Forall₂ (C.Like W) args args') :
    C.Follows W C.Like (Library.call f args) (Library.call f args') := by
  rw [Library.call_eq f h]
  exact follows_blind (blind_libraryCall f args') (gives_rigid f args') fun hv => hv _

theorem follows_define {v v' : Value} {a b : ScopeId} (hab : W.pair a b) (name : Name)
    (hv : C.Like W v v') (mark : Mark) :
    C.Follows W C.Like (Run.scopes (Forest.define a name v mark))
      (Run.scopes (Forest.define b name v' mark)) :=
  follows_scopes fun hV _ _ ht => ht.define (Matching.pair_mono hV hab) name (hv.mono hV) mark

theorem follows_set {v v' : Value} {a b : ScopeId} (hab : W.Sees a b) (name : Name)
    (hv : C.Like W v v') :
    C.Follows W C.Like (Run.scopes (Forest.set a name v)) (Run.scopes (Forest.set b name v')) :=
  follows_scopes fun hV _ _ ht => ht.set (hab.mono hV) name (hv.mono hV)

theorem follows_get {a b : ScopeId} (hab : W.Sees a b) (name : Name) :
    C.Follows W C.Like (Run.scopes (Forest.get a name)) (Run.scopes (Forest.get b name)) :=
  follows_scopes fun hV _ _ ht => ht.get (hab.mono hV) name

theorem follows_delete {a b : ScopeId} (hab : W.Sees a b) (name : Name) :
    C.Follows W C.Like (Run.scopes (Forest.delete a name)) (Run.scopes (Forest.delete b name)) :=
  follows_scopes fun hV _ _ ht => ht.delete (hab.mono hV) name

section Rules

variable {eval eval' : Evaluator} {s s' : ScopeId}

theorem follows_nameOf (n : Node) :
    C.Follows W Same (Evaluate.nameOf n) (Evaluate.nameOf n) :=
  follows_same (blind_nameOf n)

theorem follows_all {ns : List Node}
    (h : ∀ n ∈ ns, C.Follows W C.Like (eval n s) (eval' n s')) :
    C.Follows W (fun V => List.Forall₂ (C.Like V)) (Evaluate.all eval s ns)
      (Evaluate.all eval' s' ns) := by
  induction ns with
  | nil => exact follows_pure fun _ => .nil
  | cons n ns ih =>
    obtain ⟨hn, hns⟩ := List.forall_mem_cons.mp h
    refine follows_bind hn fun hV hv => ?_
    refine follows_bind ((ih hns).mono hV) fun hU hvs => ?_
    exact follows_pure fun hT => .cons (hv.mono (hU.trans hT)) (like_all_mono hvs hT)

theorem follows_sequence {ns ns' : List Node}
    (h : List.Forall₂ (fun n n' => C.Follows W C.Like (eval n s) (eval' n' s')) ns ns') :
    C.Follows W Any (Evaluate.sequence eval s ns) (Evaluate.sequence eval' s' ns') := by
  induction h with
  | nil => exact follows_pure fun _ => trivial
  | cons hn _ ih => exact follows_bind (follows_discard hn) fun hV _ => ih.mono hV

theorem follows_valueIfAny {value : Node}
    (h : value ≠ .null → C.Follows W C.Like (eval value s) (eval' value s')) :
    C.Follows W C.Like (Evaluate.valueIfAny eval value s) (Evaluate.valueIfAny eval' value s') := by
  cases value with
  | null => exact follows_made .null
  | _ => exact h nofun

theorem follows_loop {c c' : Run Bool} {b b' : Run Unit} (hc : C.Follows W Same c c')
    (hb : C.Follows W Any b b') (passes count : Nat) :
    C.Follows W Same (Evaluate.loop c b passes count) (Evaluate.loop c' b' passes count) := by
  induction passes generalizing W count with
  | zero => exact follows_throw _
  | succ passes ih =>
    refine follows_bind hc ?_
    rintro V t _ hV rfl
    cases t with
    | false => exact follows_pure fun _ => rfl
    | true =>
      refine follows_bind (hb.mono hV) fun hU _ => ?_
      exact ih (hc.mono (hV.trans hU)) (hb.mono (hV.trans hU)) (count + 1)

theorem follows_condition {test : Node} (h : C.Follows W C.Like (eval test s) (eval' test s')) :
    C.Follows W Same (Evaluate.condition eval test s) (Evaluate.condition eval' test s') :=
  follows_bind h fun _ hv => follows_lift hv.holds_eq

/-- Two blocks of related statements, or twice the same tree that is no block. -/
inductive Blocks (R : Node → Node → Prop) : Node → Node → Prop
  | block {ss ss'} (h : Agree (List.Forall₂ R) (Content.parts ss) (Content.parts ss')) :
      Blocks R (.block ss) (.block ss')
  | other {n} (h : ∀ ss, n ≠ .block ss) : Blocks R n n

/-- Related trees end alike in scopes that stand for each other. -/
def Relates (C : Comparison) (R : Node → Node → Prop) (eval eval' : Evaluator) : Prop :=
  ∀ V n n' c c', R n n' → V.pair c c' → C.Follows V C.Like (eval n c) (eval' n' c')

theorem Relates.follows {R : Node → Node → Prop} (h : C.Relates R eval eval') {n n' : Node}
    (hn : R n n') {c c' : ScopeId} (hc : W.pair c c') :
    C.Follows W C.Like (eval n c) (eval' n' c') :=
  h W n n' c c' hn hc

theorem agree_self {R : α → α → Prop} (hR : ∀ a, R a a) (x : Except Fault α) : Agree R x x := by
  cases x with
  | ok a => exact .ok (hR a)
  | error fault => exact .error fault

theorem parts_agree {R : Node → Node → Prop} (hR : ∀ n, R n n) (ss : Node) :
    Agree (List.Forall₂ R) (Content.parts ss) (Content.parts ss) :=
  agree_self (fun _ => List.forall₂_same.mpr fun n _ => hR n) _

theorem blocks_self {R : Node → Node → Prop} (hR : ∀ n, R n n) (block : Node) :
    Blocks R block block := by
  cases block with
  | block ss => exact .block (parts_agree hR ss)
  | _ => exact .other nofun

section Blocks

variable {R : Node → Node → Prop} (hR : C.Relates R eval eval') (hs : W.Sees s s')

include hR

theorem Blocks.follows_sequence {ns ns' : List Node} (h : List.Forall₂ R ns ns') {c c' : ScopeId}
    (hc : W.pair c c') :
    C.Follows W Any (Evaluate.sequence eval c ns) (Evaluate.sequence eval' c' ns') :=
  Comparison.follows_sequence (h.imp fun _ _ hn => hR.follows hn hc)

include hs

theorem follows_inOwnScope {ss ss' : Node}
    (h : Agree (List.Forall₂ R) (Content.parts ss) (Content.parts ss')) :
    C.Follows W Any (Evaluate.inOwnScope eval ss s) (Evaluate.inOwnScope eval' ss' s') := by
  refine follows_within hs fun hV hc => ?_
  refine follows_bind (follows_ofExcept (P := fun _ => List.Forall₂ R) fun _ => h) fun hU hns => ?_
  exact Blocks.follows_sequence hR hns (Matching.pair_mono hU hc)

theorem follows_blockIn {block block' : Node} (h : Blocks R block block') :
    C.Follows W Any (Evaluate.blockIn eval block s) (Evaluate.blockIn eval' block' s') := by
  cases h with
  | block h => exact follows_inOwnScope hR hs h
  | other h =>
    have hthrow (e : Evaluator) (c : ScopeId) :
        Evaluate.blockIn e block c = throw .missingPart := by
      cases block with
      | block ss => exact absurd rfl (h ss)
      | _ => rfl
    rw [hthrow, hthrow]
    exact follows_throw _

theorem follows_blockIfAny {block block' : Node} (h : Blocks R block block') :
    C.Follows W Any (Evaluate.blockIfAny eval block s) (Evaluate.blockIfAny eval' block' s') := by
  have hblock := follows_blockIn hR hs h
  cases h with
  | block h => exact hblock
  | other h =>
    cases block with
    | null => exact follows_pure fun _ => trivial
    | _ => exact hblock

theorem follows_ifStmt {test thenBlock thenBlock' elseBlock elseBlock' : Node}
    (htest : C.Follows W C.Like (eval test s) (eval' test s'))
    (hthen : Blocks R thenBlock thenBlock') (helse : Blocks R elseBlock elseBlock') :
    C.Follows W C.Like (Evaluate.ifStmt eval test thenBlock elseBlock s)
      (Evaluate.ifStmt eval' test thenBlock' elseBlock' s') := by
  refine follows_bind htest fun hV hv => ?_
  refine follows_bind (follows_lift hv.holds_eq) ?_
  rintro U holds _ hU rfl
  refine follows_bind (follows_log ?_) fun hT _ => ?_
  · rw [hv.content_eq]
  have hsees := hs.mono ((hV.trans hU).trans hT)
  cases holds with
  | true => exact follows_bind (follows_blockIn hR hsees hthen) fun _ _ => follows_made .null
  | false => exact follows_bind (follows_blockIfAny hR hsees helse) fun _ _ => follows_made .null

theorem follows_whileStmt (passes : Nat) {test body body' : Node}
    (htest : C.Follows W C.Like (eval test s) (eval' test s')) (hbody : Blocks R body body') :
    C.Follows W C.Like (Evaluate.whileStmt passes eval test body s)
      (Evaluate.whileStmt passes eval' test body' s') := by
  have hloop := follows_loop (follows_condition htest) (follows_blockIn hR hs hbody) passes 0
  refine follows_bind hloop ?_
  rintro V count _ - rfl
  exact follows_bind (follows_log rfl) fun _ _ => follows_made .null

theorem follows_forStmt (passes : Nat) {init test update body body' : Node} (hinit : R init init)
    (htest : R test test) (hupdate : R update update) (hbody : Blocks R body body') :
    C.Follows W C.Like (Evaluate.forStmt passes eval init test update body s)
      (Evaluate.forStmt passes eval' init test update body' s') := by
  refine follows_bind (follows_within hs fun {V c c'} _ hc => ?_) fun _ _ => follows_made .null
  refine follows_bind (follows_discard (hR.follows hinit hc)) fun {U _ _} hU _ => ?_
  have hc := Matching.pair_mono hU hc
  have hpass : C.Follows U Any (do
      Evaluate.blockIn eval body c
      discard (eval update c)) (do
      Evaluate.blockIn eval' body' c'
      discard (eval' update c')) :=
    follows_bind (follows_blockIn hR (.pair hc) hbody) fun hT _ =>
      follows_discard (hR.follows hupdate (Matching.pair_mono hT hc))
  refine follows_bind (follows_loop (follows_condition (hR.follows htest hc)) hpass passes 0) ?_
  rintro T count _ - rfl
  exact follows_log rfl

end Blocks

theorem follows_declare {v v' : Value} (hs : W.pair s s') (name isConst : Node)
    (hv : C.Like W v v') :
    C.Follows W C.Like (Evaluate.declare name isConst v s)
      (Evaluate.declare name isConst v' s') := by
  refine follows_bind (follows_nameOf name) ?_
  rintro V x _ hV rfl
  have hdefine := follows_define (Matching.pair_mono hV hs) x (hv.mono hV)
  refine follows_bind (follows_discard (hdefine _)) fun hU _ => ?_
  refine follows_bind (follows_log ?_) fun hT _ => ?_
  · rw [hv.content_eq, hv.kindName_eq]
  exact follows_value (hv.mono ((hV.trans hU).trans hT))

theorem follows_funcDecl {body body' : Node} (hs : W.pair s s') (name params : Node)
    (hbody : C.bodies body body') :
    C.Follows W C.Like (Evaluate.funcDecl name params body s)
      (Evaluate.funcDecl name params body' s') := by
  refine follows_bind (follows_capture hs) fun hV _ => ?_
  refine follows_bind (follows_nameOf name) ?_
  rintro U x _ hU rfl
  refine follows_bind (follows_same blind_freshIdentity) ?_
  rintro T i _ hT rfl
  have hle := (hV.trans hU).trans hT
  have hf : C.Like T (.function i x params body s) (.function i x params body' s') :=
    .function i x params hbody (Matching.pair_mono hle hs)
  have hdefine := follows_define (Matching.pair_mono hle hs) x hf .function
  refine follows_bind (follows_discard hdefine) fun hR _ => ?_
  refine follows_bind (follows_log rfl) fun hQ _ => ?_
  exact follows_value (hf.mono (hR.trans hQ))

theorem follows_bindParams (hs : W.pair s s') (params : List Node) {args args' : List Value}
    (hargs : List.Forall₂ (C.Like W) args args') :
    C.Follows W Any (Evaluate.bindParams s params args) (Evaluate.bindParams s' params args') := by
  induction params generalizing W args args' with
  | nil => exact follows_pure fun _ => trivial
  | cons param params ih =>
    refine follows_bind (follows_nameOf param) ?_
    rintro V x _ hV rfl
    have hhead : C.Like W (args.headD .null) (args'.headD .null) := by
      cases hargs with
      | nil => exact .null
      | cons hv _ => exact hv
    have htail : List.Forall₂ (C.Like W) args.tail args'.tail := by
      cases hargs with
      | nil => exact .nil
      | cons _ hvs => exact hvs
    have hdefine := follows_define (Matching.pair_mono hV hs) x (hhead.mono hV) .variable
    refine follows_bind (follows_discard hdefine) fun hU _ => ?_
    exact ih (Matching.pair_mono (hV.trans hU) hs) (like_all_mono htail (hV.trans hU))

/-- The statements of two functions: related ones, up to the first `return` among them. -/
inductive Bodies (R : Node → Node → Prop) : List Node → List Node → Prop
  | nil : Bodies R [] []
  | last {value} (h : R (.returnStmt value) (.returnStmt value)) (rest rest') :
      Bodies R (.returnStmt value :: rest) (.returnStmt value :: rest')
  | cons {n n' rest rest'} (hn : ∀ value, n ≠ .returnStmt value)
      (hn' : ∀ value, n' ≠ .returnStmt value) (h : R n n') (hrest : Bodies R rest rest') :
      Bodies R (n :: rest) (n' :: rest')

theorem bodies_self {R : Node → Node → Prop} (hR : ∀ n, R n n) (ns : List Node) :
    Bodies R ns ns := by
  induction ns with
  | nil => exact .nil
  | cons n ns ih =>
    cases n with
    | returnStmt value => exact .last (hR _) ns ns
    | _ => exact .cons nofun nofun (hR _) ih

theorem body_cons {n : Node} (hn : ∀ value, n ≠ .returnStmt value) (eval : Evaluator)
    (scope : ScopeId) (rest : List Node) :
    Evaluate.body eval scope (n :: rest) = (do
      discard (eval n scope)
      Evaluate.body eval scope rest) := by
  cases n with
  | returnStmt value => exact absurd rfl (hn value)
  | _ => rfl

theorem follows_body {R : Node → Node → Prop} (hR : C.Relates R eval eval') (hs : W.pair s s')
    {ns ns' : List Node} (h : Bodies R ns ns') :
    C.Follows W C.Like (Evaluate.body eval s ns) (Evaluate.body eval' s' ns') := by
  induction h generalizing W with
  | nil => exact follows_made .null
  | last h => exact hR.follows h hs
  | cons hn hn' h _ ih =>
    rw [body_cons hn, body_cons hn']
    refine follows_bind (follows_discard (hR.follows h hs)) fun hV _ => ?_
    exact ih (Matching.pair_mono hV hs)

def runBody (eval : Evaluator) (block : Node) (scope : ScopeId) : Run Value := do
  Evaluate.body eval scope (← Content.parts (← Evaluate.statementsOf block))

/-- Two ways to evaluate trees that agree on all trees, in scopes that stand for each other, on
expressions also where there are blank scopes between, and on related bodies of functions. -/
structure Carries (C : Comparison) (eval eval' : Evaluator) : Prop where
  trees : C.Relates Eq eval eval'
  expressions : ∀ {W : Matching} {n s s'}, n.Expression → W.Sees s s' →
    C.Follows W C.Like (eval n s) (eval' n s')
  bodies : ∀ {W : Matching} {block block' s s'}, C.bodies block block' → W.pair s s' →
    C.Follows W C.Like (runBody eval block s) (runBody eval' block' s')
  bodies_refl : ∀ block, C.bodies block block

theorem follows_invoke (h : C.Carries eval eval') (name : Name) {f f' : Value}
    {args args' : List Value} (hf : C.Like W f f') (hargs : List.Forall₂ (C.Like W) args args') :
    C.Follows W C.Like (Evaluate.invoke eval name f args)
      (Evaluate.invoke eval' name f' args') := by
  cases hf with
  | native f => exact follows_libraryCall f hargs
  | function i x params hbody hclosure =>
    have hchild : C.Follows W (fun V c c' => V.pair c c') (Run.scopes (Forest.child _))
        (Run.scopes (Forest.child _)) :=
      follows_scopes fun hV _ _ ht => ht.child (.pair (Matching.pair_mono hV hclosure))
    refine follows_bind hchild fun hV hc => ?_
    refine follows_bind (follows_lift rfl) ?_
    rintro U ps _ hU rfl
    have hparams := follows_bindParams (Matching.pair_mono hU hc) ps
      (like_all_mono hargs (hV.trans hU))
    refine follows_bind hparams fun hT _ => ?_
    exact h.bodies hbody (Matching.pair_mono (hU.trans hT) hc)
  | _ => exact follows_throw _

theorem follows_call (h : C.Carries eval eval') (hs : W.Sees s s') (name : Node) {args : Node}
    (hargs : ∀ ns, Content.parts args = .ok ns → ∀ n ∈ ns,
      C.Follows W C.Like (eval n s) (eval' n s')) :
    C.Follows W C.Like (Evaluate.call eval name args s) (Evaluate.call eval' name args s') := by
  refine follows_bind (follows_nameOf name) ?_
  rintro V x _ hV rfl
  refine follows_bind (follows_get (hs.mono hV) x) fun hU hf => ?_
  refine follows_bind (follows_known _) ?_
  rintro T ns _ hT ⟨rfl, hns⟩
  have hle := (hV.trans hU).trans hT
  have hall := follows_all fun n hn => (hargs ns hns n hn).mono hle
  refine follows_bind hall fun hS hvs => ?_
  refine follows_bind (follows_log ?_) fun hR _ => ?_
  · rw [Value.Like.contents_eq hvs]
  exact follows_invoke h x (hf.mono ((hT.trans hS).trans hR)) (like_all_mono hvs hR)

theorem follows_arrayLiteral {elems : Node}
    (helems : ∀ ns, Content.parts elems = .ok ns → ∀ n ∈ ns,
      C.Follows W C.Like (eval n s) (eval' n s')) :
    C.Follows W C.Like (Evaluate.arrayLiteral eval elems s)
      (Evaluate.arrayLiteral eval' elems s') := by
  refine follows_bind (follows_known _) ?_
  rintro V ns _ hV ⟨rfl, hns⟩
  refine follows_bind (follows_all fun n hn => (helems ns hns n hn).mono hV) fun hU hvs => ?_
  refine follows_bind (follows_same blind_freshIdentity) ?_
  rintro T i _ hT rfl
  exact follows_value (Value.like_array.mpr (like_all_mono hvs hT))

theorem follows_index {target position : Node}
    (htarget : C.Follows W C.Like (eval target s) (eval' target s'))
    (hposition : C.Follows W C.Like (eval position s) (eval' position s')) :
    C.Follows W C.Like (Evaluate.index eval target position s)
      (Evaluate.index eval' target position s') := by
  refine follows_bind htarget fun hV hv => ?_
  refine follows_bind (hposition.mono hV) fun hU hi => ?_
  exact follows_ofExcept fun hT => (hv.mono (hU.trans hT)).get (hi.mono hT)

theorem follows_assign {value : Node} (hs : W.Sees s s') (name : Node)
    (hvalue : C.Follows W C.Like (eval value s) (eval' value s')) :
    C.Follows W C.Like (Evaluate.assign eval name value s)
      (Evaluate.assign eval' name value s') := by
  refine follows_bind hvalue fun hV hv => ?_
  refine follows_bind (follows_nameOf name) ?_
  rintro U x _ hU rfl
  exact follows_set (hs.mono (hV.trans hU)) x (hv.mono hU)

theorem follows_stepped (operator : String) (name? : Option Node) (hs : W.Sees s s') {v v' : Value}
    (hv : C.Like W v v') :
    C.Follows W C.Like (Course.stepped operator name? s v)
      (Course.stepped operator name? s' v') := by
  unfold Course.stepped
  rw [← Operator.step?_eq operator hv]
  refine follows_bind (follows_known _) ?_
  rintro V next? _ hV ⟨rfl, hnext⟩
  cases next? with
  | none => exact follows_made .null
  | some next =>
    cases name? with
    | none => exact follows_throw _
    | some name =>
      refine follows_bind (follows_nameOf name) ?_
      rintro U x _ hU rfl
      exact follows_set (hs.mono (hV.trans hU)) x (Operator.step?_result hnext).like

/-- The other unary operators see the same in values that are alike. -/
theorem unary_congr {operator : Node} (h : ¬ (operator.plain = "++" ∨ operator.plain = "--"))
    (operand : Node) {v v' : Value} (hv : C.Like W v v') :
    Evaluate.unary (fun _ _ => pure v) operator operand s =
      Evaluate.unary (fun _ _ => pure v') operator operand s' := by
  unfold Evaluate.unary
  rw [pure_bind, pure_bind]
  split
  · rw [hv.isFalsy_eq]
  · cases hv <;> rfl
  · rw [if_neg h, if_neg h]

theorem follows_unary {operator operand : Node} (hs : W.Sees s s')
    (hoperand : C.Follows W C.Like (eval operand s) (eval' operand s')) :
    C.Follows W C.Like (Evaluate.unary eval operator operand s)
      (Evaluate.unary eval' operator operand s') := by
  by_cases h : operator.plain = "++" ∨ operator.plain = "--"
  · rw [Course.unary_of_step h, Course.unary_of_step h]
    exact follows_bind hoperand fun hV hv => follows_stepped _ _ (hs.mono hV) hv
  · rw [Course.unary_eq_bind, Course.unary_eq_bind eval']
    refine follows_bind hoperand fun hV hv => ?_
    rw [unary_congr h operand hv]
    have hgives := gives_unary (V := C.Rigid) (fun x => rigid_of_simple (.number x))
      (fun b => rigid_of_simple (.boolean b)) (rigid_of_simple .null) h operand s'
    exact follows_blind (Course.blind_unary h operand s' _) (hgives _) fun hv => hv _

theorem follows_truth {right : Node}
    (hright : C.Follows W C.Like (eval right s) (eval' right s')) :
    C.Follows W C.Like (do return .boolean !(← Run.ofExcept (← eval right s).isFalsy))
      (do return .boolean !(← Run.ofExcept (← eval' right s').isFalsy)) := by
  refine follows_bind hright fun hV hv => ?_
  refine follows_bind (follows_lift hv.isFalsy_eq) ?_
  rintro U falsy _ - rfl
  exact follows_made (.boolean _)

theorem follows_binary {operator left right : Node}
    (hleft : C.Follows W C.Like (eval left s) (eval' left s'))
    (hright : C.Follows W C.Like (eval right s) (eval' right s')) :
    C.Follows W C.Like (Evaluate.binary eval operator left right s)
      (Evaluate.binary eval' operator left right s') := by
  by_cases h : operator.plain = "&&" ∨ operator.plain = "||"
  · rw [Course.binary_of_lazy h, Course.binary_of_lazy h]
    refine follows_bind hleft fun hV ha => ?_
    refine follows_bind (follows_lift ha.isFalsy_eq) ?_
    rintro U falsy _ hU rfl
    split
    · exact follows_made (.boolean _)
    · exact follows_truth (hright.mono (hV.trans hU))
  · rw [Course.binary_of_strict h, Course.binary_of_strict h]
    refine follows_bind hleft fun hV ha => ?_
    refine follows_bind (hright.mono hV) fun hU hb => ?_
    rw [Operator.copies?_eq _ (ha.mono hU) hb]
    refine follows_bind (follows_same (blind_allocate _)) fun hS _ => ?_
    refine follows_bind (follows_same blind_freshIdentity) ?_
    rintro T i _ hT rfl
    refine follows_ofExcept fun hR => ?_
    have hlater := (hS.trans hT).trans hR
    exact Operator.apply_agree i _ (ha.mono (hU.trans hlater)) (hb.mono hlater)

/-- A tree and two scopes in which it may be evaluated: they stand for each other, or the tree is an
expression, and there may be blank scopes between. -/
def Near (W : Matching) (n : Node) (s s' : ScopeId) : Prop :=
  W.pair s s' ∨ n.Expression ∧ W.Sees s s'

theorem Near.sees {n : Node} (h : Near W n s s') : W.Sees s s' :=
  h.elim .pair And.right

theorem Near.follows (h : C.Carries eval eval') {n : Node} (hn : Near W n s s') :
    C.Follows W C.Like (eval n s) (eval' n s') := by
  rcases hn with hs | ⟨he, hs⟩
  · exact h.trees.follows rfl hs
  · exact h.expressions he hs

theorem Near.part {n p : Node} (hn : Near W n s s') (hp : n.Part p) : Near W p s s' :=
  hn.imp id fun ⟨he, hs⟩ => ⟨he.part hp, hs⟩

theorem Near.pair {n : Node} (hn : Near W n s s') (he : ¬ n.Expression) : W.pair s s' :=
  hn.resolve_right fun h => he h.1

/-- One step: the rule of a tree, if its parts end alike. -/
theorem follows_rule (h : C.Carries eval eval') (passes : Nat) {n : Node} (hn : Near W n s s') :
    C.Follows W C.Like (Evaluate.rule passes eval n s) (Evaluate.rule passes eval' n s') := by
  have hpart {p : Node} (hp : n.Part p) : C.Follows W C.Like (eval p s) (eval' p s') :=
    (hn.part hp).follows h
  have hs := hn.sees
  cases n with
  | numberLiteral value =>
    refine follows_bind (follows_lift rfl) ?_
    rintro V x _ - rfl
    exact follows_made (.number x)
  | stringLiteral value => exact follows_made (.string _)
  | booleanLiteral value => exact follows_made (.boolean _)
  | nullLiteral | emptyStmt => exact follows_made .null
  | identifier name =>
    refine follows_bind (follows_nameOf name) ?_
    rintro V x _ hV rfl
    exact follows_get (hs.mono hV) x
  | varDecl name value isConst =>
    have hpair := hn.pair nofun
    refine follows_bind (follows_valueIfAny fun hne => hpart (.declared _ _ hne)) fun hV hv => ?_
    exact follows_declare (Matching.pair_mono hV hpair) name isConst hv
  | assign name value => exact follows_assign hs name (hpart (.assigned _ _))
  | unaryOp operator operand => exact follows_unary hs (hpart (.operand _ _))
  | binaryOp operator left right =>
    exact follows_binary (hpart (.left _ _ _)) (hpart (.right _ _ _))
  | block statements =>
    refine follows_bind (follows_inOwnScope h.trees hs ?_) fun _ _ => follows_made .null
    exact parts_agree (fun _ => rfl) statements
  | ifStmt test thenBlock elseBlock =>
    exact follows_ifStmt h.trees hs (hpart (.branching _ _ _)) (blocks_self (fun _ => rfl) _)
      (blocks_self (fun _ => rfl) _)
  | whileStmt test body =>
    exact follows_whileStmt h.trees hs passes (hpart (.looping _ _)) (blocks_self (fun _ => rfl) _)
  | forStmt init test update body =>
    exact follows_forStmt h.trees hs passes rfl rfl rfl (blocks_self (fun _ => rfl) _)
  | funcDecl name params body =>
    exact follows_funcDecl (hn.pair nofun) name params (h.bodies_refl body)
  | call name args =>
    exact follows_call h hs name fun ns hns n hn => hpart (.argument _ hns hn)
  | returnStmt value => exact follows_valueIfAny fun hne => hpart (.returned hne)
  | deleteStmt name =>
    refine follows_bind (follows_nameOf name) ?_
    rintro V x _ hV rfl
    exact follows_delete (hs.mono hV) x
  | arrayLiteral elems => exact follows_arrayLiteral fun ns hns n hn => hpart (.item hns hn)
  | index target position =>
    exact follows_index (hpart (.target _ _)) (hpart (.position _ _))
  | _ => exact follows_throw _

end Rules

end Comparison

end Script
