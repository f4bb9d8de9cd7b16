import Script.Proofs.Ensuring
import Script.Proofs.SourceTexts

/-!
# Counting loops

A `for` or `while` loop that counts from zero prints every number below its bound once, in order.
The count is kept in a scope of the loop's own, and its passes run in scopes inside that one, so a
session has the same scopes before and after the loop.
-/
namespace Script

open Token

/-- The loop that prints the numbers below `n`, as a `for` statement. -/
def countingFor (n : Nat) : String :=
  "for (var i = 0; i < " ++ toString n ++ "; i++) \x7b print(i); \x7d"

/-- The same with a `while` statement, in a block. -/
def countingWhile (n : Nat) : String :=
  "\x7b var i = 0; while (i < " ++ toString n ++ ") \x7b print(i); i++; \x7d \x7d"

def count : Node := .identifier (.text "i")

def countFromZero : Node :=
  .varDecl (.text "i") (.numberLiteral (.text (toString 0))) (.boolean false)

def countBelow (n : Nat) : Node :=
  .binaryOp (.text "<") count (.numberLiteral (.text (toString n)))

def printCount : Node := .call (.text "print") (.list [count])

def countUp : Node := .unaryOp (.text "++") count

def forTree (n : Nat) : Node :=
  .forStmt countFromZero (countBelow n) countUp (.block (.list [printCount]))

def whileTree (n : Nat) : Node :=
  .block (.list [countFromZero, .whileStmt (countBelow n) (.block (.list [printCount, countUp]))])

section Reading

open Grammar Printer

theorem count_expression : count.Expression := .identifier (by decide)

def printLexemes : List Lexeme := [word "print", symbol "(", word "i", symbol ")", symbol ";"]

theorem printCount_derives (us : List Lexeme) :
    Derives .statement (printLexemes ++ us) printCount us :=
  have hargs : ∀ e ∈ [count], e.Expression := by simpa using count_expression
  have he : printCount.Expression := .call (by decide) hargs
  statement_derives (.expression he) us

theorem countBelow_derives (n : Nat) (us : List Lexeme) : Derives .assignment
    ([word "i", symbol "<", (.number, toString n)] ++ us) (countBelow n) us :=
  have he : (countBelow n).Expression :=
    .binary (by decide) count_expression (.number (Numeral.isNumeral_toString n))
  (expression_spelled he).loose he us

theorem countFromZero_derives (us : List Lexeme) : Derives .declaration
    ([word "var", word "i", symbol "=", (.number, toString 0), symbol ";"] ++ us) countFromZero
    us :=
  declaration_derives (.initialized false (by decide) (.number (Numeral.isNumeral_toString 0))) us

theorem countUp_derives (us : List Lexeme) :
    Derives .assignment ([word "i", symbol "++"] ++ us) countUp us :=
  stepAfter_derives (by decide) us

/-- What stands ahead of the bound, whatever follows. -/
theorem forFront_read {rest : List Char} {xs : List Lexeme} (h : ∀ line, ReadsAs line rest xs) :
    ReadsAs 1 ("for (var i = 0; i < ".toList ++ rest)
      ([word "for", symbol "(", word "var", word "i", symbol "=", (.number, "0"), symbol ";",
        word "i", symbol "<"] ++ xs) :=
  .prependBlank "for (var i = 0; i <".toList h (by decide) rfl

theorem forBack_read (line : Int) : ReadsAs line "; i++) \x7b print(i); \x7d".toList
    ([symbol ";", word "i", symbol "++", symbol ")", symbol "\x7b"] ++ (printLexemes ++
      [symbol "\x7d"])) :=
  readsAs_of_scan rfl

theorem ofSource_countingFor (n : Nat) :
    Node.ofSource (countingFor n) = .ok (.program (.list [forTree n])) := by
  have hstop : ∀ c ∈ "; i++) \x7b print(i); \x7d".toList.head?,
      (c.isDigit || decide (c = '.')) = false := stops_ahead rfl
  have hread := forFront_read fun _ => readsAs_number (n := n) hstop forBack_read
  rw [← toList_append₃] at hread
  refine Node.ofSource_of_derives hread (by simp [word, symbol, printLexemes]) ?_
  exact .programMore (.forDeclared "(" ";" ")" (countFromZero_derives _) (countBelow_derives n _)
    (countUp_derives _) (.block "\x7b" (.bodyMore (printCount_derives _) (.bodyEnd "\x7d" _))))
    (.programEnd "" [])

/-- The same ahead of the bound of the `while` loop. -/
theorem whileFront_read {rest : List Char} {xs : List Lexeme} (h : ∀ line, ReadsAs line rest xs) :
    ReadsAs 1 ("\x7b var i = 0; while (i < ".toList ++ rest)
      ([symbol "\x7b", word "var", word "i", symbol "=", (.number, "0"), symbol ";",
        word "while", symbol "(", word "i", symbol "<"] ++ xs) :=
  .prependBlank "\x7b var i = 0; while (i <".toList h (by decide) rfl

theorem whileBack_read (line : Int) : ReadsAs line ") \x7b print(i); i++; \x7d \x7d".toList
    ([symbol ")", symbol "\x7b"] ++ (printLexemes ++
      [word "i", symbol "++", symbol ";", symbol "\x7d", symbol "\x7d"])) :=
  readsAs_of_scan rfl

theorem ofSource_countingWhile (n : Nat) :
    Node.ofSource (countingWhile n) = .ok (.program (.list [whileTree n])) := by
  have hstop : ∀ c ∈ ") \x7b print(i); i++; \x7d \x7d".toList.head?,
      (c.isDigit || decide (c = '.')) = false := stops_ahead rfl
  have hread := whileFront_read fun _ => readsAs_number (n := n) hstop whileBack_read
  rw [← toList_append₃] at hread
  refine Node.ofSource_of_derives hread (by simp [word, symbol, printLexemes]) ?_
  exact .programMore (.ofBlock (.block "\x7b" (.bodyMore (.ofDeclaration (countFromZero_derives _))
    (.bodyMore (.while "(" ")" (countBelow_derives n _) (.block "\x7b" (.bodyMore
      (printCount_derives _) (.bodyMore (.ofExpression (countUp_derives _) (.semicolon ";" _))
        (.bodyEnd "\x7d" _))))) (.bodyEnd "\x7d" _))))) (.programEnd "" [])

end Reading

section Counting

open Run Evaluate

/-- The scope of the count lies in the root scope, and the count is all that it has. -/
def countScope (k : Nat) : Scope :=
  ⟨some Forest.root, [⟨.word "i", .number (toString k), .variable⟩], false⟩

/-- Of the scopes of `w₀` nothing has changed; the next one has the count, at `k`, and the numbers
below `j` are written out. The run stands in that scope, or in a blank one inside it. -/
structure Counting (w₀ : Scene) (s : ScopeId) (k j : Nat) (w : Scene) : Prop where
  older : ∀ id < w₀.forest.scopes.size, w.forest.scope? id = w₀.forest.scope? id
  own : w.forest.scope? w₀.forest.scopes.size = some (countScope k)
  output : w.output = w₀.output ++ (List.range j).map fun i => .wrote (.text (toString i))
  here : s = w₀.forest.scopes.size ∨
    w₀.forest.scopes.size < s ∧ w.forest.scope? s = some (.inside (some w₀.forest.scopes.size))

variable {w₀ w : Scene} {s : ScopeId} {k j n : Nat} {passes depth : Nat}

namespace Counting

theorem sees_count (h : Counting w₀ s k j w) : w.forest.Sees s (.word "i") w₀.forest.scopes.size
    ⟨.word "i", .number (toString k), .variable⟩ := by
  have hown : w.forest.at? w₀.forest.scopes.size (.word "i") =
      some ⟨.word "i", .number (toString k), .variable⟩ := by
    rw [Forest.at?, h.own]
    rfl
  rcases h.here with rfl | ⟨hlt, hs⟩
  · exact .here hown
  · exact .out (by rw [Forest.at?, hs]; rfl) (by rw [Forest.parentOf?, hs]; rfl) hlt (.here hown)

/-- What the root scope binds is seen, unless it is the count. -/
theorem sees_root (h : Counting w₀ s k j w) {x : Name} {b : Binding}
    (hx : (Name.word "i").same x = false) (hb : w₀.forest.at? Forest.root x = some b) :
    w.forest.Sees s x Forest.root b := by
  have hpos := Forest.lt_size_of_at? hb
  have hroot : w.forest.at? Forest.root x = some b := by rw [Forest.at?, h.older _ hpos]; exact hb
  have hown : w.forest.Sees w₀.forest.scopes.size x Forest.root b := by
    refine .out ?_ (by rw [Forest.parentOf?, h.own]; rfl) hpos (.here hroot)
    rw [Forest.at?, h.own]
    simp [countScope, Scope.find?, hx]
  rcases h.here with rfl | ⟨hlt, hs⟩
  · exact hown
  · exact .out (by rw [Forest.at?, hs]; rfl) (by rw [Forest.parentOf?, hs]; rfl) hlt hown

theorem enter (h : Counting w₀ w₀.forest.scopes.size k j w) :
    Counting w₀ w.forest.scopes.size k j (w.inside w₀.forest.scopes.size) := by
  have hlt := Forest.lt_size_of_scope? h.own
  refine ⟨fun id hid => ?_, ?_, h.output, .inr ⟨hlt, Forest.scope?_push_self _ _⟩⟩
  · exact (Forest.scope?_push_of_lt _ _ (Nat.lt_trans hid hlt)).trans (h.older id hid)
  · exact (Forest.scope?_push_of_lt _ _ hlt).trans h.own

theorem leave (h : Counting w₀ s k j w) (hs : w₀.forest.scopes.size < s) :
    Counting w₀ w₀.forest.scopes.size k j (w.leave s) := by
  refine ⟨fun id hid => ?_, ?_, h.output, .inl rfl⟩
  · exact (Forest.scope?_leave_of_ne (Nat.lt_trans hid hs).ne _ _).trans (h.older id hid)
  · exact (Forest.scope?_leave_of_ne hs.ne _ _).trans h.own

theorem print (h : Counting w₀ s k k w) : Counting w₀ s k (k + 1)
    { w with output := w.output ++ [.wrote (.text (toString k))] } := by
  refine ⟨h.older, h.own, ?_, h.here⟩
  rw [h.output, List.append_assoc, List.range_succ, List.map_append]
  rfl

theorem up (h : Counting w₀ s k j w) : Counting w₀ s (k + 1) j { w with
    forest := w.forest.modifyAt w₀.forest.scopes.size
      (·.rebind (.word "i") (.number (toString (k + 1)))) } := by
  refine ⟨fun id hid => ?_, ?_, h.output, h.here.imp_right fun ⟨hlt, hs⟩ => ⟨hlt, ?_⟩⟩
  · exact (Forest.scope?_modifyAt_of_ne _ hid.ne _).trans (h.older id hid)
  · exact Forest.scope?_modifyAt_of_eq_some h.own _
  · exact (Forest.scope?_modifyAt_of_ne _ hlt.ne' _).trans hs

end Counting

/-- The count begins at zero in a new scope. -/
theorem ensures_countFromZero :
    Ensures (evaluate passes (depth + 2) countFromZero w₀.forest.scopes.size)
      (w₀.inside Forest.root) fun _ => Counting w₀ w₀.forest.scopes.size 0 0 := by
  have hself := Forest.scope?_push_self w₀.forest (.inside (some Forest.root))
  refine ensures_varDecl (ensures_number (by decide) ⟨?_, ⟨_, rfl⟩, ?_⟩)
  · rw [Forest.at?, show (w₀.inside Forest.root).forest.scope? _ = _ from hself]
    rfl
  · refine ⟨fun id hid => ?_, ?_, (List.append_nil _).symm, .inl rfl⟩
    · exact (Forest.scope?_modifyAt_of_ne _ hid.ne _).trans (Forest.scope?_push_of_lt _ _ hid)
    · exact Forest.scope?_modifyAt_of_eq_some hself _

theorem ensures_countBelow (h : Counting w₀ s k j w) (hk : k ≤ 2 ^ 53) (hn : n ≤ 2 ^ 53) :
    Ensures (condition (evaluate passes (depth + 2)) (countBelow n) s) w fun c w' =>
      c = decide (k < n) ∧ Counting w₀ s k j w' :=
  ensures_condition (ensures_less hk hn (ensures_identifier h.sees_count
    ⟨rfl, ensures_number hn ⟨rfl, _, rfl, rfl, h⟩⟩))

theorem ensures_printCount {b : Binding} (h : Counting w₀ s k k w)
    (hb : w₀.forest.at? Forest.root (.word "print") = some b) (hprint : b.value = .native .print) :
    Ensures (evaluate passes (depth + 2) printCount s) w fun _ => Counting w₀ s k (k + 1) :=
  ensures_print (h.sees_root rfl hb) hprint (ensures_identifier h.sees_count ⟨_, rfl, h.print⟩)

theorem ensures_countUp (h : Counting w₀ s k j w) (hk : k + 1 ≤ 2 ^ 53) :
    Ensures (evaluate passes (depth + 2) countUp s) w fun _ => Counting w₀ s (k + 1) j :=
  ensures_stepUp h.sees_count rfl rfl hk h.up

/-- A pass of either loop prints the count in a scope of its own. -/
theorem ensures_pass {statements : List Node} {b : Binding} {j' : Nat}
    (h : Counting w₀ w₀.forest.scopes.size k k w)
    (hb : w₀.forest.at? Forest.root (.word "print") = some b) (hprint : b.value = .native .print)
    (hrest : ∀ s w, Counting w₀ s k (k + 1) w →
      Ensures (sequence (evaluate passes (depth + 2)) s statements) w fun _ =>
        Counting w₀ s j' (k + 1)) :
    Ensures (blockIn (evaluate passes (depth + 2)) (.block (.list (printCount :: statements)))
      w₀.forest.scopes.size) w fun _ => Counting w₀ w₀.forest.scopes.size j' (k + 1) := by
  have hlt := Forest.lt_size_of_scope? h.own
  refine .bind (ensures_pure (ensures_inOwnScope (.bind (.discard ?_))))
  refine (ensures_printCount h.enter hb hprint).mono fun _ w₁ h₁ => ?_
  exact (hrest _ w₁ h₁).mono fun _ w₂ h₂ => h₂.leave hlt

/-- The numbers below `n` are written out, and no scope that was there has changed. -/
structure Counted (w₀ : Scene) (n : Nat) (w : Scene) : Prop where
  older : ∀ id < w₀.forest.scopes.size, w.forest.scope? id = w₀.forest.scope? id
  output : w.output = w₀.output ++ (List.range n).map fun i => .wrote (.text (toString i))

theorem Counting.counted (h : Counting w₀ s n n w) :
    Counted w₀ n (w.leave w₀.forest.scopes.size) :=
  ⟨fun id hid => (Forest.scope?_leave_of_ne hid.ne _ _).trans (h.older id hid), h.output⟩

theorem ensures_forTree (depth : Nat) {b : Binding} (hn : n ≤ 2 ^ 53) (hpasses : n < passes)
    (hb : w₀.forest.at? Forest.root (.word "print") = some b) (hprint : b.value = .native .print) :
    Ensures (evaluate passes (depth + 3) (forTree n) Forest.root) w₀ fun v w =>
      v = .null ∧ Counted w₀ n w := by
  refine ensures_forStmt (I := fun k => Counting w₀ w₀.forest.scopes.size k k) hpasses
    ensures_countFromZero (fun k hk w h => ensures_countBelow h (hk.trans hn) hn)
    (fun k hk w h => ?_) fun w h => ⟨rfl, h.counted⟩
  have hnothing : ∀ s w, Counting w₀ s k (k + 1) w → Ensures (sequence (evaluate passes (depth + 2))
      s []) w fun _ => Counting w₀ s k (k + 1) := fun _ _ h => ensures_pure h
  refine (ensures_pass h hb hprint hnothing).mono fun _ w₁ h₁ => ?_
  exact ensures_countUp h₁ (Nat.le_trans hk hn)

theorem ensures_whileTree (depth : Nat) {b : Binding} (hn : n ≤ 2 ^ 53) (hpasses : n < passes)
    (hb : w₀.forest.at? Forest.root (.word "print") = some b) (hprint : b.value = .native .print) :
    Ensures (evaluate passes (depth + 4) (whileTree n) Forest.root) w₀ fun v w =>
      v = .null ∧ Counted w₀ n w := by
  refine .bind (ensures_inOwnScope (.bind (.discard ?_)))
  refine ensures_countFromZero.mono fun _ w₁ h₁ => .bind (.discard ?_)
  refine ensures_whileStmt (I := fun k => Counting w₀ w₀.forest.scopes.size k k) hpasses
    (fun k hk w h => ensures_countBelow h (hk.trans hn) hn) (fun k hk w h => ?_) h₁
    fun w h => ensures_pure (ensures_pure ⟨rfl, h.counted⟩)
  exact ensures_pass h hb hprint fun _ _ h => .bind (.discard
    ((ensures_countUp h (Nat.le_trans hk hn)).mono fun _ _ h => ensures_pure h))

end Counting

namespace Session

open Run

theorem counted_of_ensures {text : String} {t : Node} {m : Machine} {n : Nat} (echo : Bool)
    (hread : Node.ofSource text = .ok (.program (.list [t])))
    (h : Ensures (evaluate passLimit depthLimit t Forest.root) m.scene fun v w =>
      v = .null ∧ Counted m.scene n w) :
    ∃ m', source echo text m = (.ok [.null], m') ∧ Counted m.scene n m'.scene := by
  have hrun : Ensures (statements echo [] [t]) m.scene fun vs w =>
      vs = [.null] ∧ Counted m.scene n w := by
    rw [statements_cons]
    refine .bind (ensures_statement (h.mono ?_))
    rintro _ w ⟨rfl, hw⟩
    refine ⟨⟨_, rfl⟩, fun es hes => ensures_pure ⟨rfl, ?_⟩⟩
    rwa [hes rfl, List.append_nil]
  obtain ⟨vs, m', hsource, rfl, hcounted⟩ := source_of_ensures hread hrun
  exact ⟨m', hsource, hcounted⟩

/-- Both loops write out the numbers below their bound and nothing else, whatever the session has
come to before, and leave every scope that was there as it was, so that the count stays unbound. -/
theorem counting_loops_count (echo : Bool) (n : Nat) (m : Machine) {o : ScopeId} {b : Binding}
    (hn : n ≤ 2 ^ 53) (hcount : m.forest.lookup? Forest.root (.word "i") = none)
    (hfound : m.forest.lookup? Forest.root (.word "print") = some (o, b))
    (hprint : b.value = .native .print) (text : String)
    (htext : text = countingFor n ∨ text = countingWhile n) :
    ∃ m', source echo text m = (.ok [.null], m') ∧
      m'.scene.output = m.scene.output ++
        (List.range n).map (fun k => .wrote (.text (toString k))) ∧
      (∀ id < m.forest.scopes.size, m'.forest.scope? id = m.forest.scope? id) ∧
      m'.forest.lookup? Forest.root (.word "i") = none := by
  rw [Forest.lookup?_root, Option.map_eq_none_iff] at hcount
  rw [Forest.lookup?_root, Option.map_eq_some_iff] at hfound
  obtain ⟨b', hb, hpair⟩ := hfound
  obtain ⟨-, rfl⟩ := Prod.mk.inj hpair
  have hlimit : n < passLimit := Nat.lt_of_le_of_lt hn (by decide)
  have hrun : ∃ m', source echo text m = (.ok [.null], m') ∧ Counted m.scene n m'.scene := by
    rcases htext with rfl | rfl
    · exact counted_of_ensures echo (ofSource_countingFor n)
        (ensures_forTree 19997 hn hlimit hb hprint)
    · exact counted_of_ensures echo (ofSource_countingWhile n)
        (ensures_whileTree 19996 hn hlimit hb hprint)
  obtain ⟨m', hsource, hcounted⟩ := hrun
  refine ⟨m', hsource, hcounted.output, hcounted.older, ?_⟩
  have hroot : m'.forest.scope? Forest.root = m.forest.scope? Forest.root :=
    hcounted.older _ (Forest.lt_size_of_at? hb)
  rw [Forest.lookup?_root, Forest.at?, hroot, Option.map_eq_none_iff]
  exact hcount

theorem counting_loops_count_three : ∃ m' : Machine,
    source true (countingFor 3) (Machine.fresh (.seeded 0 0) 0 []) = (.ok [.null], m') ∧
    m'.scene.output = [.wrote (.text "0"), .wrote (.text "1"), .wrote (.text "2")] ∧
    m'.forest.lookup? Forest.root (.word "i") = none := by
  obtain ⟨m', hrun, houtput, -, hcount⟩ := counting_loops_count true 3
    (Machine.fresh (.seeded 0 0) 0 []) (by decide) (by decide) rfl rfl (countingFor 3) (.inl rfl)
  exact ⟨m', hrun, houtput, hcount⟩

end Session
end Script
