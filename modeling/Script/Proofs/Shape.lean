import Script.Proofs.Lookahead

/-!
# Well-formed trees

The trees that stand for programs: names are words that are no keywords, literals have texts that
can be written down, operators are known, and statements stand only where statements may. What the
grammar derives from lexemes of a text is well formed.
-/
namespace Script

namespace Token

/-- A letter or an underscore, and then letters, digits and underscores. -/
def IsWord : List Char → Prop
  | [] => False
  | d :: ds => isWordStart d = true ∧ ∀ x ∈ ds, isWordPart x = true

instance : DecidablePred IsWord
  | [] => inferInstanceAs (Decidable False)
  | d :: ds => decidable_of_iff (isWordStart d = true ∧ ds.all isWordPart = true) (by simp [IsWord])

/-- Digits, or digits on both sides of a point. -/
inductive IsNumeral : List Char → Prop
  | whole {ds} (hn : ds ≠ []) (hd : ∀ x ∈ ds, x.isDigit = true) : IsNumeral ds
  | fraction {ds es} (hn : ds ≠ []) (hd : ∀ x ∈ ds, x.isDigit = true) (hm : es ≠ [])
      (he : ∀ x ∈ es, x.isDigit = true) : IsNumeral (ds ++ '.' :: es)

/-- A text that leaves out one of the quotes, and so can stand between two of them. -/
def IsQuotable (cs : List Char) : Prop := ∃ q, isQuote q = true ∧ q ∉ cs

def symbols : List String := longOperators.map String.ofList ++ shortSymbols.map String.singleton

/-- A lexeme that a text can have. -/
def Genuine : Lexeme → Prop
  | (.number, s) => IsNumeral s.toList
  | (.string, s) => IsQuotable s.toList
  | (.ident, s) => IsWord s.toList
  | (.symbol s, v) => v = s ∧ s ∈ symbols
  | (.eof, s) => s = ""

end Token

namespace Node

open Grammar (negations steps Category Derives IsName)

/-- A word that is no keyword. -/
def ProperName (s : String) : Prop := Token.IsWord s.toList ∧ s ∉ Parse.keywords

instance : DecidablePred ProperName := fun s =>
  inferInstanceAs (Decidable (Token.IsWord s.toList ∧ s ∉ Parse.keywords))

def binaryOperators : List String :=
  ["&&", "||", "==", "!=", ">", ">=", "<", "<=", "+", "-", "*", "/", "%", "**"]

inductive Expression : Node → Prop
  | number {s} (hs : Token.IsNumeral s.toList) : Expression (.numberLiteral (.text s))
  | string {s} (hs : Token.IsQuotable s.toList) : Expression (.stringLiteral (.text s))
  | boolean (b) : Expression (.booleanLiteral (.boolean b))
  | null : Expression .nullLiteral
  | identifier {x} (hx : ProperName x) : Expression (.identifier (.text x))
  | assign {x e} (hx : ProperName x) (he : Expression e) : Expression (.assign (.text x) e)
  | negation {s e} (hs : s ∈ negations) (he : Expression e) : Expression (.unaryOp (.text s) e)
  | step {s x} (hs : s ∈ steps) (hx : ProperName x) :
      Expression (.unaryOp (.text s) (.identifier (.text x)))
  | binary {s a b} (hs : s ∈ binaryOperators) (ha : Expression a) (hb : Expression b) :
      Expression (.binaryOp (.text s) a b)
  | call {x es} (hx : ProperName x) (he : ∀ e ∈ es, Expression e) :
      Expression (.call (.text x) (.list es))
  | array {es} (he : ∀ e ∈ es, Expression e) : Expression (.arrayLiteral (.list es))
  | index {a i} (ha : Expression a) (hi : Expression i) : Expression (.index a i)

/-- A declaration; one of a constant has a value. -/
inductive Declaration : Node → Prop
  | uninitialized {x} (hx : ProperName x) : Declaration (.varDecl (.text x) .null (.boolean false))
  | initialized {x e} (b) (hx : ProperName x) (he : Expression e) :
      Declaration (.varDecl (.text x) e (.boolean b))

inductive Statement : Node → Prop
  | expression {e} (he : Expression e) : Statement e
  | declaration {e} (he : Declaration e) : Statement e
  | block {ss} (hs : ∀ s ∈ ss, Statement s) : Statement (.block (.list ss))
  | empty : Statement .emptyStmt
  | function {x} {ps : List String} {ss} (hx : ProperName x) (hp : ∀ p ∈ ps, ProperName p)
      (hs : ∀ s ∈ ss, Statement s) :
      Statement (.funcDecl (.text x) (.list (ps.map .text)) (.block (.list ss)))
  | ifThen {e ss} (he : Expression e) (hs : ∀ s ∈ ss, Statement s) :
      Statement (.ifStmt e (.block (.list ss)) .null)
  | ifElse {e ss rs} (he : Expression e) (hs : ∀ s ∈ ss, Statement s)
      (hr : ∀ s ∈ rs, Statement s) :
      Statement (.ifStmt e (.block (.list ss)) (.block (.list rs)))
  | while {e ss} (he : Expression e) (hs : ∀ s ∈ ss, Statement s) :
      Statement (.whileStmt e (.block (.list ss)))
  | for {i e n ss} (hi : Declaration i ∨ Expression i) (he : Expression e) (hn : Expression n)
      (hs : ∀ s ∈ ss, Statement s) : Statement (.forStmt i e n (.block (.list ss)))
  | returnNothing : Statement (.returnStmt .null)
  | returnValue {e} (he : Expression e) : Statement (.returnStmt e)
  | delete {x} (hx : ProperName x) : Statement (.deleteStmt (.text x))

/-- A program: a list of statements. -/
inductive WellFormed : Node → Prop
  | program {ss} (hs : ∀ s ∈ ss, Statement s) : WellFormed (.program (.list ss))

/-- What the tree of a phrase looks like. -/
def Shape : Category → Node → Prop
  | .assignment | .logical | .comparison | .additive | .multiplicative | .unary | .indexed
  | .primary => Expression
  | .name => fun e => ∃ s, e = .text s ∧ ProperName s
  | .items k _ | .moreItems k _ => fun e => ∃ es, e = .list es ∧ ∀ x ∈ es, Shape k x
  | .declaration => Declaration
  | .block => fun e => ∃ ss, e = .block (.list ss) ∧ ∀ s ∈ ss, Statement s
  | .body | .program => fun e => ∃ ss, e = .list ss ∧ ∀ s ∈ ss, Statement s
  | .statement => Statement

theorem Shape.loosen {c d : Category} {e : Node} (hc : c.tighter? = some d) (h : Shape d e) :
    Shape c e := by
  cases c <;> simp only [Category.tighter?, Option.some.injEq, reduceCtorEq] at hc <;> subst hc <;>
    exact h

theorem operators_subset (c : Category) : c.operators ⊆ binaryOperators := by
  cases c <;> simp only [Category.operators, List.nil_subset] <;> decide

theorem Shape.binary {c d : Category} {s : String} {a b : Node} (hc : c.tighter? = some d)
    (hs : s ∈ c.operators) (ha : Shape c a) (hb : Shape d b) :
    Shape c (.binaryOp (.text s) a b) := by
  have hop := operators_subset c hs
  cases c <;> simp only [Category.tighter?, Option.some.injEq, reduceCtorEq] at hc <;> subst hc <;>
    exact Expression.binary hop ha hb

theorem Shape.assigned {f : Option String} {s x : String} {e : Node}
    (hs : (s, f) ∈ Parse.assignments) (hx : ProperName x) (he : Expression e) :
    Expression (Parse.assigned (.text x) e f) := by
  cases f with
  | none => exact .assign hx he
  | some o =>
    have ho : ∀ a ∈ Parse.assignments, ∀ o, a.2 = some o → o ∈ binaryOperators := by decide
    exact .assign hx (.binary (ho _ hs o rfl) (.identifier hx) he)

theorem Expression.identifier_inv {e : Node} (h : Expression (.identifier e)) :
    ∃ x, e = .text x ∧ ProperName x := by
  cases h with
  | identifier hx => exact ⟨_, rfl, hx⟩

theorem shape_nil {k : Category} : ∃ es, Node.list [] = .list es ∧ ∀ x ∈ es, Shape k x :=
  ⟨[], rfl, by simp⟩

theorem shape_cons {P : Node → Prop} {e : Node} {es : List Node} (he : P e)
    (hes : ∃ fs, Node.list es = .list fs ∧ ∀ x ∈ fs, P x) :
    ∃ fs, Node.list (e :: es) = .list fs ∧ ∀ x ∈ fs, P x := by
  obtain ⟨fs, hf, hall⟩ := hes
  obtain rfl := Node.list.inj hf
  exact ⟨e :: es, rfl, List.forall_mem_cons.mpr ⟨he, hall⟩⟩

/-- The names of a parameter list. -/
theorem names_of_shape {e : Node} (h : Shape (.items .name ")") e) :
    ∃ ps : List String, e = .list (ps.map .text) ∧ ∀ p ∈ ps, ProperName p := by
  obtain ⟨es, rfl, hes⟩ := h
  induction es with
  | nil => exact ⟨[], rfl, by simp⟩
  | cons x es ih =>
    obtain ⟨⟨s, rfl, hs⟩, hes'⟩ := List.forall_mem_cons.mp hes
    obtain ⟨ps, hp, hall⟩ := ih hes'
    obtain rfl := Node.list.inj hp
    exact ⟨s :: ps, rfl, List.forall_mem_cons.mpr ⟨hs, hall⟩⟩

open Token (Genuine) in
theorem shape_of_derives {k : Category} {ts us : List Lexeme} {e : Node} (h : Derives k ts e us)
    (hg : ∀ x ∈ ts, Genuine x) : Shape k e := by
  -- every lexeme behind a phrase is one of those ahead of it
  have next {k ts e us} (h : Derives k ts e us) (hg : ∀ x ∈ ts, Genuine x) : ∀ x ∈ us, Genuine x :=
    fun x hx => hg x (h.suffix.subset hx)
  have past {k ts e u us} (h : Derives k ts e (u :: us)) (hg : ∀ x ∈ ts, Genuine x) :
      ∀ x ∈ us, Genuine x := (List.forall_mem_cons.mp (next h hg)).2
  induction h with
  | loosen hc _ ih => exact Shape.loosen hc (ih hg)
  | number => exact Expression.number (hg _ List.mem_cons_self)
  | string => exact Expression.string (hg _ List.mem_cons_self)
  | isTrue | isFalse => exact Expression.boolean _
  | null => exact Expression.null
  | identifier _ hs => exact Expression.identifier ⟨hg _ List.mem_cons_self, hs⟩
  | call _ hs _ ih =>
    obtain ⟨hx, hg⟩ := List.forall_mem_cons.mp hg
    obtain ⟨es, rfl, hes⟩ := ih (List.forall_mem_cons.mp hg).2
    exact Expression.call ⟨hx, hs⟩ hes
  | paren _ _ _ ih => exact ih (List.forall_mem_cons.mp hg).2
  | array _ _ ih =>
    obtain ⟨es, rfl, hes⟩ := ih (List.forall_mem_cons.mp hg).2
    exact Expression.array hes
  | index _ _ he _ ih₁ ih₂ =>
    exact Expression.index (ih₁ hg) (ih₂ (past he hg))
  | negation _ hs _ ih =>
    obtain ⟨⟨rfl, -⟩, hg'⟩ := List.forall_mem_cons.mp hg
    exact Expression.negation hs (ih hg')
  | stepBefore _ hs _ ih =>
    obtain ⟨⟨rfl, -⟩, hg'⟩ := List.forall_mem_cons.mp hg
    obtain ⟨x, rfl, hx⟩ := Expression.identifier_inv (ih hg')
    exact Expression.step hs hx
  | stepAfter hs h ih =>
    obtain ⟨⟨rfl, -⟩, -⟩ := List.forall_mem_cons.mp (next h hg)
    obtain ⟨x, rfl, hx⟩ := Expression.identifier_inv (ih hg)
    exact Expression.step hs hx
  | binary hc hs ha _ ih₁ ih₂ =>
    obtain ⟨⟨rfl, -⟩, hg'⟩ := List.forall_mem_cons.mp (next ha hg)
    exact Shape.binary hc hs (ih₁ hg) (ih₂ hg')
  | assign hs hx _ ih₁ ih₂ =>
    obtain ⟨x, rfl, hx'⟩ := Expression.identifier_inv (ih₁ hg)
    exact Shape.assigned hs hx' (ih₂ (past hx hg))
  | name _ hs => exact ⟨_, rfl, hg _ List.mem_cons_self, hs⟩
  | noItems | noMore => exact shape_nil
  | someItems he _ ih₁ ih₂ => exact shape_cons (ih₁ hg) (ih₂ (next he hg))
  | more _ he _ ih₁ ih₂ =>
    obtain ⟨-, hg⟩ := List.forall_mem_cons.mp hg
    exact shape_cons (ih₁ hg) (ih₂ (next he hg))
  | uninitialized _ _ hs =>
    exact Declaration.uninitialized ⟨hg _ (List.mem_cons_of_mem _ List.mem_cons_self), hs⟩
  | initialized _ _ _ hs _ ih =>
    obtain ⟨-, hg⟩ := List.forall_mem_cons.mp hg
    obtain ⟨hx, hg⟩ := List.forall_mem_cons.mp hg
    exact Declaration.initialized _ ⟨hx, hs⟩ (ih (List.forall_mem_cons.mp hg).2)
  | bodyEnd | programEnd => exact ⟨[], rfl, by simp⟩
  | bodyMore he _ ih₁ ih₂ | programMore he _ ih₁ ih₂ =>
    exact shape_cons (ih₁ hg) (ih₂ (next he hg))
  | block _ _ ih =>
    obtain ⟨ss, rfl, hs⟩ := ih (List.forall_mem_cons.mp hg).2
    exact ⟨ss, rfl, hs⟩
  | ofBlock _ ih =>
    obtain ⟨ss, rfl, hs⟩ := ih hg
    exact Statement.block hs
  | ofDeclaration _ ih => exact Statement.declaration (ih hg)
  | ofExpression _ _ ih => exact Statement.expression (ih hg)
  | empty => exact Statement.empty
  | function _ hs hp _ ih₁ ih₂ =>
    obtain ⟨-, hg⟩ := List.forall_mem_cons.mp hg
    obtain ⟨hx, hg⟩ := List.forall_mem_cons.mp hg
    obtain ⟨-, hg⟩ := List.forall_mem_cons.mp hg
    obtain ⟨ps, rfl, hps⟩ := names_of_shape (ih₁ hg)
    obtain ⟨ss, rfl, hss⟩ := ih₂ (next hp hg)
    exact Statement.function ⟨hx, hs⟩ hps hss
  | ifThen _ _ he _ ih₁ ih₂ =>
    obtain ⟨-, hg⟩ := List.forall_mem_cons.mp hg
    obtain ⟨-, hg⟩ := List.forall_mem_cons.mp hg
    obtain ⟨ss, rfl, hss⟩ := ih₂ (past he hg)
    exact Statement.ifThen (ih₁ hg) hss
  | ifElse _ _ he ha _ ih₁ ih₂ ih₃ =>
    obtain ⟨-, hg⟩ := List.forall_mem_cons.mp hg
    obtain ⟨-, hg⟩ := List.forall_mem_cons.mp hg
    have hg₂ := past he hg
    obtain ⟨ss, rfl, hss⟩ := ih₂ hg₂
    obtain ⟨rs, rfl, hrs⟩ := ih₃ (past ha hg₂)
    exact Statement.ifElse (ih₁ hg) hss hrs
  | «while» _ _ he _ ih₁ ih₂ =>
    obtain ⟨-, hg⟩ := List.forall_mem_cons.mp hg
    obtain ⟨-, hg⟩ := List.forall_mem_cons.mp hg
    obtain ⟨ss, rfl, hss⟩ := ih₂ (past he hg)
    exact Statement.while (ih₁ hg) hss
  | forDeclared _ _ _ hi he hn _ ih₁ ih₂ ih₃ ih₄ =>
    obtain ⟨-, hg⟩ := List.forall_mem_cons.mp hg
    obtain ⟨-, hg⟩ := List.forall_mem_cons.mp hg
    have hg₂ := next hi hg
    have hg₃ := past he hg₂
    obtain ⟨ss, rfl, hss⟩ := ih₄ (past hn hg₃)
    exact Statement.for (.inl (ih₁ hg)) (ih₂ hg₂) (ih₃ hg₃) hss
  | forExpression _ _ _ _ hi he hn _ ih₁ ih₂ ih₃ ih₄ =>
    obtain ⟨-, hg⟩ := List.forall_mem_cons.mp hg
    obtain ⟨-, hg⟩ := List.forall_mem_cons.mp hg
    have hg₂ := past hi hg
    have hg₃ := past he hg₂
    obtain ⟨ss, rfl, hss⟩ := ih₄ (past hn hg₃)
    exact Statement.for (.inr (ih₁ hg)) (ih₂ hg₂) (ih₃ hg₃) hss
  | returnNothing => exact Statement.returnNothing
  | returnValue _ _ ih => exact Statement.returnValue (ih (List.forall_mem_cons.mp hg).2)
  | delete _ _ hs => exact Statement.delete ⟨hg _ (List.mem_cons_of_mem _ List.mem_cons_self), hs⟩

end Node
end Script
