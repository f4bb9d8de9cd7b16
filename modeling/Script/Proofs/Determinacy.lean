import Script.Proofs.Advancing

/-!
# What a parse depends on

A token list with an end token is parsed to its first end token, or up to a place where a token
does not fit. Either way only the tokens up to there matter: no continuation changes the program,
and none repairs a misfit.
-/
namespace Script

namespace Parse

open Token (Kind)

/-- The rules of the grammar, with a bound for loops and nesting. -/
inductive Rule (n : Nat) : {α : Type} → Parse α → Prop
  | name : Rule n name
  | items (close : String) : Rule n (items n (expression n) close)
  | params (close : String) : Rule n (items n name close)
  | primary : Rule n (primary (expression n) n)
  | indices (target : Node) : Rule n (indices (expression n) n target)
  | unary : Rule n (unary (expression n) n n)
  | multiplicative : Rule n (multiplicative (expression n) n)
  | additive : Rule n (additive (expression n) n)
  | comparison : Rule n (comparison (expression n) n)
  | logical : Rule n (logical (expression n) n)
  | assignment : Rule n (assignment (expression n) n n)
  | expression : Rule n (expression n)
  | endOfExpression : Rule n endOfExpression
  | condition : Rule n (condition (expression n))
  | varDecl : Rule n (varDecl (expression n))
  | forInit : Rule n (forInit (expression n))
  | returnStmt : Rule n (returnStmt (expression n))
  | deleteStmt : Rule n deleteStmt
  | block : Rule n (block (statement n) n)
  | funcDecl : Rule n (funcDecl (statement n) n)
  | ifStmt : Rule n (ifStmt (expression n) (statement n) n)
  | whileStmt : Rule n (whileStmt (expression n) (statement n) n)
  | forStmt : Rule n (forStmt (expression n) (statement n) n)
  | statement : Rule n (statement n)
  | program : Rule n (program n)

/-- The levels of binary operators: the symbols of each and the rule for its operands. -/
def levels (n : Nat) : List (List String × Parse Node) :=
  [(["*", "/", "%", "**"], unary (expression n) n n),
    (["+", "-"], multiplicative (expression n) n),
    (["==", "!=", ">", ">=", "<", "<="], additive (expression n) n),
    (["&&", "||"], comparison (expression n) n)]

/-- One more pass of a loop, from the place where the loop goes on to the place behind the pass. -/
inductive Pass (n : Nat) (c d : Cursor) : Prop
  | statement {a : Node} (goesOn : c.current.kind ≠ .eof) (run : statement n c = .ok (a, d))
  | item {a : Node} (goesOn : c.current.kind = .symbol ",")
      (run : (do advance; expression n) c = .ok (a, d))
  | param {a : String} (goesOn : c.current.kind = .symbol ",")
      (run : (do advance; name) c = .ok (a, d))
  | index {a : Node} (goesOn : c.current.kind = .symbol "[")
      (run : (do advance; let i ← expression n; discard (expectSymbol "]"); return i) c =
        .ok (a, d))
  | operand {operators : List String} {operand : Parse Node} {a : Token × Node}
      (level : (operators, operand) ∈ levels n)
      (goesOn : (operators.any fun s => c.current.kind = .symbol s) = true)
      (run : (do let operator ← take; let right ← operand; return (operator, right)) c = .ok (a, d))

theorem Rule.reads {n : Nat} {α : Type} {p : Parse α} (h : Rule n p) :
    Advances (n - 2) (n - 2) 0 p p := by
  have hp := advances_expression n n
  have hs := advances_statement n n
  cases h with
  | name => exact advances_name.imp (Nat.le_refl _) (Nat.le_refl _) (by omega)
  | items close => exact (advances_items hp close).imp (by omega) (by omega) (by omega)
  | params close =>
    have hname : Advances (n - 1) (n - 1) 1 Parse.name Parse.name := advances_name
    exact (advances_items hname close).imp (by omega) (by omega) (by omega)
  | primary => exact (advances_primary hp).imp (by omega) (by omega) (by omega)
  | indices target => exact (advances_indices hp n n target).imp (by omega) (by omega) (by omega)
  | unary => exact (advances_operand hp).imp (by omega) (by omega) (by omega)
  | multiplicative => exact (advances_multiplicative hp).imp (by omega) (by omega) (by omega)
  | additive => exact (advances_additive hp).imp (by omega) (by omega) (by omega)
  | comparison => exact (advances_comparison hp).imp (by omega) (by omega) (by omega)
  | logical => exact (advances_logical hp).imp (by omega) (by omega) (by omega)
  | assignment => exact (advances_assignment hp n n).imp (by omega) (by omega) (by omega)
  | expression => exact hp.imp (by omega) (by omega) (by omega)
  | endOfExpression => exact advances_endOfExpression
  | condition => exact (advances_condition hp).imp (by omega) (by omega) (by omega)
  | varDecl => exact (advances_varDecl hp).imp (by omega) (by omega) (by omega)
  | forInit => exact (advances_forInit hp).imp (by omega) (by omega) (by omega)
  | returnStmt => exact (advances_returnStmt hp).imp (by omega) (by omega) (by omega)
  | deleteStmt => exact advances_deleteStmt.imp (Nat.le_refl _) (Nat.le_refl _) (by omega)
  | block => exact (advances_block hs).imp (by omega) (by omega) (by omega)
  | funcDecl => exact (advances_funcDecl hs).imp (by omega) (by omega) (by omega)
  | ifStmt => exact (advances_ifStmt hp hs).imp (by omega) (by omega) (by omega)
  | whileStmt => exact (advances_whileStmt hp hs).imp (by omega) (by omega) (by omega)
  | forStmt => exact (advances_forStmt hp hs).imp (by omega) (by omega) (by omega)
  | statement => exact hs.imp (by omega) (by omega) (by omega)
  | program => exact advances_program n n

theorem passes_of_run {α : Type} {size : Nat} {p : Parse α} {a : α} {c d : Cursor}
    (hrun : p c = .ok (a, d)) (hc : c.HasEnd) (hlen : c.view.length ≤ size)
    (h : Along (fun _ => False) size size 1 p p c) : ∃ front, front ≠ [] ∧ c.Passes front d := by
  cases h hc hlen with
  | @ok a' d' front passes progress run _ =>
    obtain ⟨-, rfl⟩ := Prod.mk.inj (Except.ok.inj (hrun.symm.trans run))
    refine ⟨front, ?_, passes⟩
    rintro rfl
    exact absurd progress (by decide)
  | misfit cause line _ _ run _ => cases hrun.symm.trans run

theorem advances_of_mem_levels {n : Nat} {operators : List String} {operand : Parse Node}
    (h : (operators, operand) ∈ levels n) : Advances n n 1 operand operand := by
  have hp := advances_expression n n
  simp only [levels, List.mem_cons, List.not_mem_nil, or_false, Prod.mk.injEq] at h
  rcases h with ⟨-, rfl⟩ | ⟨-, rfl⟩ | ⟨-, rfl⟩ | ⟨-, rfl⟩
  · exact advances_operand hp
  · exact advances_multiplicative hp
  · exact advances_additive hp
  · exact advances_comparison hp

/-- Every pass of a loop passes a token. -/
theorem Pass.progress {n : Nat} {c d : Cursor} (h : Pass n c d) (hc : c.HasEnd)
    (hn : c.view.length + 2 ≤ n) : ∃ front, front ≠ [] ∧ c.Passes front d := by
  have hp := advances_expression n n
  have hlen : c.view.length ≤ n - 2 := by omega
  cases h with
  | statement _ run => exact passes_of_run run hc hlen (advances_statement n n _ c)
  | item goesOn run =>
    refine passes_of_run run hc hlen (along_advance (by simp [goesOn]) fun d => ?_)
    exact hp.imp (by omega) (by omega) (by omega) _ d
  | param goesOn run =>
    refine passes_of_run run hc hlen (along_advance (by simp [goesOn]) fun d => ?_)
    exact (advances_name _ d).weaken
  | index goesOn run =>
    refine passes_of_run run hc hlen (along_advance (by simp [goesOn]) fun d => ?_)
    refine (Along.then (hp.imp (by omega) (by omega) (by omega) _ d) fun i d => ?_).weaken
    exact along_close _ _ d
  | operand level goesOn run =>
    obtain ⟨s, -, hs⟩ := List.any_eq_true.mp goesOn
    have hne : c.current.kind ≠ .eof := by
      rw [of_decide_eq_true hs]
      simp
    refine passes_of_run run hc hlen (along_take hne ?_)
    exact (Along.then ((advances_of_mem_levels level).imp (by omega) (by omega) (by omega) _ _)
      fun right d => along_pure _ _).weaken

/-- Only an end token ends the statements of a program. -/
theorem statements_end {s : Parse Node} {K : Nat} {c d : Cursor} {body : List Node}
    (h : statements s K c = .ok (body, d)) : d.current.kind = .eof := by
  induction K generalizing c body with
  | zero => cases h
  | succ K ih =>
    simp only [statements, isAt_bind] at h
    split at h
    · rename_i hc
      obtain ⟨-, rfl⟩ := Prod.mk.inj (Except.ok.inj h)
      exact of_decide_eq_true hc
    · obtain ⟨first, e, -, h⟩ := bind_eq_ok.mp h
      obtain ⟨rest, e', hrest, h⟩ := bind_eq_ok.mp h
      obtain ⟨-, rfl⟩ := Prod.mk.inj (Except.ok.inj h)
      exact ih hrest

theorem program_end {n : Nat} {c d : Cursor} {tree : Node} (h : program n c = .ok (tree, d)) :
    d.current.kind = .eof := by
  obtain ⟨body, e, hbody, h⟩ := bind_eq_ok.mp h
  obtain ⟨-, rfl⟩ := Prod.mk.inj (Except.ok.inj h)
  exact statements_end hbody

theorem Cursor.Passes.front_eq {c d : Cursor} {front front' : List Token} (h : c.Passes front d)
    (h' : c.Passes front' d) : front = front' :=
  List.append_cancel_right (h.ahead.symm.trans h'.ahead)

section Program

variable {c d : Cursor} {front : List Token} {N n : Nat} (hc : c.HasEnd)
  (hlen : c.view.length ≤ N - 2) (hpasses : c.Passes front d) (hn : front.length + 3 ≤ n)

include hc hlen hpasses hn

theorem program_same_ok {tree : Node} (hrun : program N c = .ok (tree, d)) {c' d' : Cursor}
    (hd : d'.current = d.current) (hc' : c'.ahead = front ++ d'.ahead) :
    program n c' = .ok (tree, d') := by
  cases advances_program N n (fun _ => False) c hc hlen with
  | ok a passes _ run same =>
    obtain ⟨rfl, rfl⟩ := Prod.mk.inj (Except.ok.inj (hrun.symm.trans run))
    obtain rfl := hpasses.front_eq passes
    exact same (by omega) c' d' hd hc'
  | misfit cause line _ _ run _ => cases hrun.symm.trans run

theorem program_same_misfit {cause : ParseFault.Cause} {line : Int}
    (hrun : program N c = .error (.misfit cause line d)) {c' d' : Cursor}
    (hd : d'.current = d.current) (hc' : c'.ahead = front ++ d'.ahead) :
    program n c' = .error (.misfit cause line d') := by
  cases advances_program N n (fun _ => False) c hc hlen with
  | ok a _ _ run _ => cases hrun.symm.trans run
  | misfit cause line passes _ run same =>
    obtain ⟨rfl, rfl, rfl⟩ := ParseFault.misfit.inj (Except.error.inj (hrun.symm.trans run))
    obtain rfl := hpasses.front_eq passes
    exact same (by omega) c' d' hd hc'

end Program

theorem ofTokens_ahead (c : Cursor) :
    Node.ofTokens c.ahead = (program (c.ahead.length + 2) c).map (·.1) := rfl

theorem exists_ahead (front : List Token) (d : Cursor) :
    ∃ c : Cursor, c.ahead = front ++ d.ahead := by
  cases front with
  | nil => exact ⟨d, rfl⟩
  | cons t ts => exact ⟨⟨t, ts ++ d.ahead⟩, rfl⟩

/-- Parsing moves on, comes to an end and is decided by the tokens that it has passed. In a list
with an end token, every rule leads to a place further on, without passing an end token, and every
pass of a loop passes a token. The whole list is parsed up to its first end token, and then every
list that is the same up to there gives the same program; or a token does not fit, and then every
list that is the same up to the place where the parser stands has the same misfit, reported for the
line of a token up to there. Every bound that exceeds the number of passed tokens by three does. -/
theorem parsing_is_decided_by_the_past {tokens : List Token} (hend : ∃ t ∈ tokens, t.kind = .eof) :
    (∀ (n : Nat) (c : Cursor), c.HasEnd → c.view.length + 2 ≤ n →
      (∀ (α : Type) (p : Parse α), Rule n p → ∃ front d, c.Passes front d ∧
        ((∃ a, p c = .ok (a, d)) ∨ ∃ cause line, p c = .error (.misfit cause line d))) ∧
      ∀ d, Pass n c d → ∃ front, front ≠ [] ∧ c.Passes front d) ∧
    ((∃ front last rest tree, tokens = front ++ last :: rest ∧ (∀ t ∈ front, t.kind ≠ .eof) ∧
        last.kind = .eof ∧ ∀ rest',
          Node.ofTokens (front ++ last :: rest') = .ok tree ∧
          ∀ (c : Cursor) (n : Nat), c.ahead = front ++ last :: rest' → front.length + 3 ≤ n →
            program n c = .ok (tree, ⟨last, rest'⟩)) ∨
      ∃ front current rest cause line, tokens = front ++ current :: rest ∧
        (∀ t ∈ front, t.kind ≠ .eof) ∧ (∃ t ∈ front ++ [current], t.line = line) ∧ ∀ rest',
          Node.ofTokens (front ++ current :: rest') = .error (.misfit cause line ⟨current, rest'⟩) ∧
          ∀ (c : Cursor) (n : Nat), c.ahead = front ++ current :: rest' → front.length + 3 ≤ n →
            program n c = .error (.misfit cause line ⟨current, rest'⟩)) := by
  constructor
  · intro n c hc hn
    refine ⟨fun α p hp => ?_, fun d hd => hd.progress hc hn⟩
    cases hp.reads (fun _ => False) c hc (by omega) with
    | ok a passes _ run _ => exact ⟨_, _, passes, .inl ⟨a, run⟩⟩
    | misfit cause line passes _ run _ => exact ⟨_, _, passes, .inr ⟨cause, line, run⟩⟩
  · obtain ⟨c, rfl⟩ : ∃ c : Cursor, c.ahead = tokens := by
      obtain ⟨t, ht, -⟩ := hend
      obtain ⟨u, us, rfl⟩ := List.exists_cons_of_ne_nil (List.ne_nil_of_mem ht)
      exact ⟨⟨u, us⟩, rfl⟩
    have hc : c.HasEnd := hend
    have hofTokens {front : List Token} {current : Token} {rest : List Token}
        {r : Except ParseFault (Node × Cursor)}
        (h : ∀ (c : Cursor) (n : Nat), c.ahead = front ++ current :: rest → front.length + 3 ≤ n →
          program n c = r) : Node.ofTokens (front ++ current :: rest) = r.map (·.1) := by
      obtain ⟨c', hc'⟩ := exists_ahead front ⟨current, rest⟩
      have hrun := h c' (c'.ahead.length + 2) hc' (by rw [hc']; simp [Cursor.ahead])
      have htokens := ofTokens_ahead c'
      rw [hrun, hc'] at htokens
      exact htokens
    cases advances_program (c.view.length + 2) 0 (fun _ => False) c hc (by omega) with
    | @ok tree d front passes _ run _ =>
      refine .inl ⟨front, d.current, d.rest, tree, passes.ahead, passes.inner, program_end run,
        fun rest' => ?_⟩
      have hsame (c' : Cursor) (n : Nat) (hc' : c'.ahead = front ++ d.current :: rest')
          (hn : front.length + 3 ≤ n) : program n c' = .ok (tree, ⟨d.current, rest'⟩) :=
        program_same_ok hc (by omega) passes hn run rfl hc'
      exact ⟨hofTokens hsame, hsame⟩
    | @misfit cause line d front passes seen run _ =>
      refine .inr ⟨front, d.current, d.rest, cause, line, passes.ahead, passes.inner,
        seen.resolve_left id, fun rest' => ?_⟩
      have hsame (c' : Cursor) (n : Nat) (hc' : c'.ahead = front ++ d.current :: rest')
          (hn : front.length + 3 ≤ n) :
          program n c' = .error (.misfit cause line ⟨d.current, rest'⟩) :=
        program_same_misfit hc (by omega) passes hn run rfl hc'
      exact ⟨hofTokens hsame, hsame⟩

def danglingSign : List Token := [⟨.symbol "-", "-", 1⟩, ⟨.eof, "", 2⟩]

/-- No continuation repairs a sign with nothing behind it. -/
theorem danglingSign_is_final : (∃ t ∈ danglingSign, t.kind = .eof) ∧
    ∀ rest, Node.ofTokens (danglingSign ++ rest) =
      .error (.misfit .endOfInput 2 ⟨⟨.eof, "", 2⟩, rest⟩) := by
  have hend : ∃ t ∈ danglingSign, t.kind = .eof := ⟨⟨.eof, "", 2⟩, by simp [danglingSign], rfl⟩
  have hrun : Node.ofTokens danglingSign = .error (.misfit .endOfInput 2 ⟨⟨.eof, "", 2⟩, []⟩) := by
    rfl
  refine ⟨hend, fun rest => ?_⟩
  rcases (parsing_is_decided_by_the_past hend).2 with
    ⟨front, last, tail, tree, htokens, -, -, hsame⟩ |
    ⟨front, current, tail, cause, line, htokens, -, -, hsame⟩
  · have hok := (hsame tail).1
    rw [← htokens, hrun] at hok
    cases hok
  · have hmisfit := (hsame tail).1
    rw [← htokens, hrun] at hmisfit
    cases hmisfit
    have hagain := (hsame rest).1
    have hlist : front ++ ⟨.eof, "", 2⟩ :: rest = danglingSign ++ rest := by
      rw [htokens]
      simp
    rwa [hlist] at hagain

end Parse
end Script
