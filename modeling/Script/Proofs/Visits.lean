import Script.Proofs.Course
import Script.Proofs.Proper

/-!
# What a run comes to

The rule of a tree meets evaluations of parts, each on the machine that the steps before it have
left, and these come to others in turn. A computation depends on the evaluator only in what it
meets. Where no part stops an evaluation, it may still halt: at an operator that refuses its
operands or has no room for what it makes, at a loop that has gone through all the passes it may
take, and where nothing may nest any deeper.
-/
namespace Script

structure Evaluation where
  depth : Nat
  node : Node
  scope : ScopeId
  machine : Machine

def Evaluation.result (passes : Nat) (e : Evaluation) : EStateM.Result Fault Machine Value :=
  evaluate passes e.depth e.node e.scope e.machine

section Meets

variable {eval eval' : Evaluator} {n : Node} {scope : ScopeId} {start m : Machine} {α : Type}

/-- From a machine, a computation meets the evaluation of a tree in a scope that begins on another
one. -/
inductive Course.Meets (eval : Evaluator) (n : Node) (scope : ScopeId) (start : Machine) :
    {α : Type} → {x : Evaluator → Run α} → Course x → Machine → Prop
  | part : Meets eval n scope start (.part n scope) start
  | first {α β : Type} {x : Evaluator → Run α} {k : α → Evaluator → Run β} {c : Course x}
      {next : (a : α) → Course (k a)} {m : Machine} (h : Meets eval n scope start c m) :
      Meets eval n scope start (.seq c next) m
  | next {α β : Type} {x : Evaluator → Run α} {k : α → Evaluator → Run β} {c : Course x}
      {next : (a : α) → Course (k a)} {m m' : Machine} {a : α} (hx : x eval m = .ok a m')
      (h : Meets eval n scope start (next a) m') : Meets eval n scope start (.seq c next) m
  | within {α : Type} {parent : ScopeId} {body : ScopeId → Evaluator → Run α}
      {inner : (id : ScopeId) → Course (body id)} {m : Machine}
      (h : Meets eval n scope start (inner m.forest.scopes.size) (m.inside parent)) :
      Meets eval n scope start (.within parent inner) m

open Course

theorem Course.Meets.same {x y : Evaluator → Run α} {c : Course x} (h : x = y)
    (hc : c.Meets eval n scope start m) : (Course.same h c).Meets eval n scope start m := by
  subst h
  exact hc

/-- Evaluators that agree on what a computation meets are the same to it. -/
theorem Course.apply_congr {x : Evaluator → Run α} (c : Course x) {m : Machine}
    (h : ∀ n scope start, c.Meets eval n scope start m →
      eval n scope start = eval' n scope start) :
    x eval m = x eval' m := by
  induction c generalizing m with
  | quiet | log | scopes | capture => rfl
  | part n scope => exact h n scope m .part
  | @seq α β x k first next ihx ihk =>
    have hx := ihx fun n scope start hn => h n scope start (.first hn)
    simp only [bind, EStateM.bind, ← hx]
    cases hrun : x eval m with
    | ok a m' => exact ihk a fun n scope start hn => h n scope start (.next hrun hn)
    | error fault m' => rfl
  | @within _ parent body inner ih =>
    have hinner := ih m.forest.scopes.size fun n scope start hn => h n scope start (.within hn)
    change Run.within parent (fun id => body id eval) m =
      Run.within parent (fun id => body id eval') m
    rw [within_apply, within_apply, hinner]

/-- An operator that looks at both operands meets the left one and, on the machine that it leaves,
the right one. -/
theorem Course.meets_operands (eval : Evaluator) {passes : Nat} {operator left right : Node}
    (h : ¬ (operator.plain = "&&" ∨ operator.plain = "||")) (m : Machine) :
    (Course.rule passes (.binaryOp operator left right) scope).Meets eval left scope m m ∧
      ∀ a m', eval left scope m = .ok a m' →
        (Course.rule passes (.binaryOp operator left right) scope).Meets eval right scope m' m := by
  have hrule : Course.rule passes (.binaryOp operator left right) scope =
      Course.binary operator left right scope := rfl
  rw [hrule, Course.binary, dif_neg h]
  exact ⟨.same _ (.first .part), fun a m' ha => .same _ (.next ha (.first .part))⟩

end Meets

section Loops

/-- A loop goes through so many passes, one after another. -/
inductive Repeats (condition : Run Bool) (body : Run Unit) : Nat → Machine → Prop
  | none (m) : Repeats condition body 0 m
  | pass {k m m₁ m₂} (hc : condition m = .ok true m₁) (hb : body m₁ = .ok () m₂)
      (rest : Repeats condition body k m₂) : Repeats condition body (k + 1) m

/-- The passes are the same to an evaluator that agrees on what the loop meets. -/
theorem Repeats.congr {eval eval' : Evaluator} {condition : Evaluator → Run Bool}
    {body : Evaluator → Run Unit} (test : Course condition) (pass : Course body) {k : Nat}
    (count : Nat) {m : Machine} (h : Repeats (condition eval') (body eval') k m)
    (hs : ∀ n scope start, (Course.loop test pass k count).Meets eval n scope start m →
      eval n scope start = eval' n scope start) :
    Repeats (condition eval) (body eval) k m := by
  induction h generalizing count with
  | none => exact .none _
  | @pass k m m₁ m₂ hc hb _ ih =>
    have htest : condition eval m = .ok true m₁ :=
      (test.apply_congr fun n scope start hn => hs n scope start (.first hn)).trans hc
    have hpass : body eval m₁ = .ok () m₂ :=
      (pass.apply_congr fun n scope start hn =>
        hs n scope start (.next htest (.first hn))).trans hb
    exact .pass htest hpass <| ih (count + 1) fun n scope start hn =>
      hs n scope start (.next htest (.next hpass hn))

end Loops

namespace Evaluate

/-- What stops the rule of a tree where none of its parts does. -/
inductive Halts (passes : Nat) (eval : Evaluator) : Node → ScopeId → Machine → Fault → Prop
  | refused {operator left right scope m a m₁ b m₂ fault} (hl : eval left scope m = .ok a m₁)
      (hr : eval right scope m₁ = .ok b m₂) (h : Operator.Refuses operator a b fault) :
      Halts passes eval (.binaryOp (.text operator) left right) scope m fault
  | exhausted {left right scope m a m₁ b m₂ count length} (hl : eval left scope m = .ok a m₁)
      (hr : eval right scope m₁ = .ok b m₂) (h : Operator.copies? "*" a b = some (count, length))
      (hroom : m₂.ambient.memory ≤ length * count) :
      Halts passes eval (.binaryOp (.text "*") left right) scope m (@Fault.outOfMemory count length)
  | whileLoop {test body scope m}
      (h : Repeats (condition eval test scope) (blockIn eval body scope) passes m) :
      Halts passes eval (.whileStmt test body) scope m .unfinished
  | forLoop {init test update body scope m inner v m₁} (hinner : inner = m.forest.scopes.size)
      (hi : eval init inner (m.inside scope) = .ok v m₁)
      (h : Repeats (condition eval test inner)
        (blockIn eval body inner >>= fun _ => discard (eval update inner)) passes m₁) :
      Halts passes eval (.forStmt init test update body) scope m .unfinished

theorem Halts.congr {passes : Nat} {eval eval' : Evaluator} {n : Node} {scope : ScopeId}
    {m : Machine} {fault : Fault} (h : Halts passes eval' n scope m fault)
    (hs : ∀ k t start, (Course.rule passes n scope).Meets eval k t start m →
      eval k t start = eval' k t start) :
    Halts passes eval n scope m fault := by
  have hoperands {operator : String} {left right : Node} {scope : ScopeId} {m m₁ m₂ : Machine}
      {a b : Value} (ho : operator ∈ ["/", "%", "*"])
      (hs : ∀ k t start,
        (Course.rule passes (.binaryOp (.text operator) left right) scope).Meets eval k t start m →
          eval k t start = eval' k t start)
      (hl : eval' left scope m = .ok a m₁) (hr : eval' right scope m₁ = .ok b m₂) :
      eval left scope m = .ok a m₁ ∧ eval right scope m₁ = .ok b m₂ := by
    have hstrict : ¬ ((Node.text operator).plain = "&&" ∨ (Node.text operator).plain = "||") := by
      revert ho
      simp only [List.mem_cons, List.not_mem_nil, or_false, Node.plain]
      rintro (rfl | rfl | rfl) <;> decide
    obtain ⟨hleft, hright⟩ := Course.meets_operands eval hstrict m
    have hl := (hs _ _ _ hleft).trans hl
    exact ⟨hl, (hs _ _ _ (hright a m₁ hl)).trans hr⟩
  cases h with
  | refused hl hr h =>
    obtain ⟨hl, hr⟩ := hoperands (by cases h <;> decide) hs hl hr
    exact .refused hl hr h
  | exhausted hl hr h hroom =>
    obtain ⟨hl, hr⟩ := hoperands (by decide) hs hl hr
    exact .exhausted hl hr h hroom
  | @whileLoop test body scope m h =>
    refine .whileLoop (h.congr (.condition test scope) (.blockIn body scope) 0 ?_)
    exact fun n t start hn => hs n t start (.first hn)
  | @forLoop init test update body scope m inner v m₁ hinner hi h =>
    subst hinner
    have hinit : eval init m.forest.scopes.size (m.inside scope) = .ok v m₁ :=
      (hs _ _ _ (.first (.within (.first (.first .part))))).trans hi
    refine .forLoop rfl hinit <| h.congr (.condition test _)
      (.seq (.blockIn body _) fun _ => .discard (.part update _)) 0 fun n t start hn => ?_
    exact hs n t start (.first (.within (.next (Run.bind_of_ok hinit _) (.first hn))))

end Evaluate

namespace Evaluation

/-- An evaluation comes to itself, and to what the parts come to that it meets. -/
inductive ComesTo (passes : Nat) : Evaluation → Evaluation → Prop
  | here (e) : ComesTo passes e e
  | part {depth n scope m k t start goal}
      (h : (Course.rule passes n scope).Meets (evaluate passes depth) k t start m)
      (rest : ComesTo passes ⟨depth, k, t, start⟩ goal) :
      ComesTo passes ⟨depth + 1, n, scope, m⟩ goal

/-- What stops an evaluation where none of its parts does. -/
inductive Halts (passes : Nat) : Evaluation → Fault → Prop
  | tooDeep (n scope m) : Halts passes ⟨0, n, scope, m⟩ .tooDeep
  | rule {depth n scope m fault}
      (h : Evaluate.Halts passes (evaluate passes depth) n scope m fault) :
      Halts passes ⟨depth + 1, n, scope, m⟩ fault

/-- An evaluation comes to one that halts with a fault and leaves this machine. -/
def Stopped (passes : Nat) (e : Evaluation) (fault : Fault) (m : Machine) : Prop :=
  ∃ goal, e.ComesTo passes goal ∧ goal.Halts passes fault ∧ goal.result passes = .error fault m

theorem Stopped.not_unshown {passes : Nat} {e : Evaluation} {fault : Fault} {m : Machine}
    (h : e.Stopped passes fault m) : ¬ fault.Unshown := by
  obtain ⟨goal, -, hhalts, -⟩ := h
  intro hu
  cases hhalts with
  | tooDeep => cases hu
  | rule hrule =>
    cases hrule with
    | refused _ _ hr => cases hr <;> cases hu
    | exhausted => cases hu
    | whileLoop => cases hu
    | forLoop => cases hu

end Evaluation
end Script
