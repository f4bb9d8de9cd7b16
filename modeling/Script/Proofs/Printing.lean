import Script.Proofs.Completeness
import Script.Proofs.Soundness
import Script.Proofs.Spelling

/-!
# Printing programs

A tree as lexemes, with parentheses only around an operand that binds looser than its place asks
for. The grammar derives a well-formed tree from its lexemes, so reading the printed text gives the
tree back; and whatever is read from a text is well formed.
-/
namespace Script

open Grammar

namespace Printer

def symbol (s : String) : Lexeme := (.symbol s, s)

def word (s : String) : Lexeme := (.ident, s)

def parenthesized (ts : List Lexeme) : List Lexeme := symbol "(" :: (ts ++ [symbol ")"])

def rank : Category → Nat
  | .assignment => 0
  | .logical => 1
  | .comparison => 2
  | .additive => 3
  | .multiplicative => 4
  | .unary => 5
  | .indexed => 6
  | _ => 7

def binaryLevels : List Category := [.logical, .comparison, .additive, .multiplicative]

def operatorLevel (s : String) : Category :=
  (binaryLevels.find? fun k => k.operators.contains s).getD .primary

/-- The level of the operator that an expression is made with. -/
def level : Node → Category
  | .assign .. => .assignment
  | .binaryOp (.text s) _ _ => operatorLevel s
  | .unaryOp .. => .unary
  | .index .. => .indexed
  | _ => .primary

/-- The lexemes of an expression in a place of some level. -/
def enclosed (k : Category) (e : Node) (ts : List Lexeme) : List Lexeme :=
  if rank k ≤ rank (level e) then ts else parenthesized ts

mutual

def expression : Node → List Lexeme
  | .numberLiteral (.text s) => [(.number, s)]
  | .stringLiteral (.text s) => [(.string, s)]
  | .booleanLiteral (.boolean b) => [word (if b then "true" else "false")]
  | .nullLiteral => [word "null"]
  | .identifier (.text x) => [word x]
  | .assign (.text x) e => word x :: symbol "=" :: expression e
  | .unaryOp (.text s) e => symbol s :: enclosed .unary e (expression e)
  | .binaryOp (.text s) a b =>
      enclosed (operatorLevel s) a (expression a) ++
        symbol s :: enclosed ((operatorLevel s).tighter?.getD .primary) b (expression b)
  | .call (.text x) (.list es) => word x :: symbol "(" :: (items es ++ [symbol ")"])
  | .arrayLiteral (.list es) => symbol "[" :: (items es ++ [symbol "]"])
  | .index a i =>
      enclosed .indexed a (expression a) ++ symbol "[" :: (expression i ++ [symbol "]"])
  | _ => []

def items : List Node → List Lexeme
  | [] => []
  | e :: es => expression e ++ moreItems es

def moreItems : List Node → List Lexeme
  | [] => []
  | e :: es => symbol "," :: (expression e ++ moreItems es)

end

def names : List Node → List Lexeme
  | .text x :: ps => word x :: moreNames ps
  | _ => []
where
  moreNames : List Node → List Lexeme
  | .text x :: ps => symbol "," :: word x :: moreNames ps
  | _ => []

def declaration : Node → List Lexeme
  | .varDecl (.text x) .null _ => [word "var", word x, symbol ";"]
  | .varDecl (.text x) e (.boolean b) =>
      word (if b then "const" else "var") :: word x :: symbol "=" :: (expression e ++ [symbol ";"])
  | _ => []

def braced (ts : List Lexeme) : List Lexeme := symbol "\x7b" :: (ts ++ [symbol "\x7d"])

def init : Node → List Lexeme
  | .varDecl x e b => declaration (.varDecl x e b)
  | e => expression e ++ [symbol ";"]

mutual

def statement : Node → List Lexeme
  | .varDecl x e b => declaration (.varDecl x e b)
  | .block (.list ss) => braced (statements ss)
  | .emptyStmt => [symbol ";"]
  | .funcDecl (.text x) (.list ps) (.block (.list ss)) =>
      word "function" :: word x :: (parenthesized (names ps) ++ braced (statements ss))
  | .ifStmt e (.block (.list ss)) .null =>
      word "if" :: (parenthesized (expression e) ++ braced (statements ss))
  | .ifStmt e (.block (.list ss)) (.block (.list rs)) =>
      word "if" :: (parenthesized (expression e) ++ (braced (statements ss) ++
        word "else" :: braced (statements rs)))
  | .whileStmt e (.block (.list ss)) =>
      word "while" :: (parenthesized (expression e) ++ braced (statements ss))
  | .forStmt i e n (.block (.list ss)) =>
      word "for" :: (parenthesized (init i ++ (expression e ++ symbol ";" :: expression n)) ++
        braced (statements ss))
  | .returnStmt .null => [word "return", symbol ";"]
  | .returnStmt e => word "return" :: (expression e ++ [symbol ";"])
  | .deleteStmt (.text x) => [word "delete", word x, symbol ";"]
  | e => expression e ++ [symbol ";"]

def statements : List Node → List Lexeme
  | [] => []
  | s :: ss => statement s ++ statements ss

end

def program : Node → List Lexeme
  | .program (.list ss) => statements ss
  | _ => []

/-- The text of a program: its lexemes with single blanks between them. -/
def text (p : Node) : String := Token.spaced (program p)

def levels : List Category :=
  [.assignment, .logical, .comparison, .additive, .multiplicative, .unary, .indexed, .primary]

theorem tighter_of_level : ∀ k ∈ levels, k ≠ .primary →
    ∃ d ∈ levels, k.tighter? = some d ∧ rank d = rank k + 1 := by decide

theorem rank_injective : ∀ k ∈ levels, ∀ l ∈ levels, rank k = rank l → k = l := by decide

/-- A phrase of a level is one of every looser level. -/
theorem derives_of_rank_le {k l : Category} {ts us : List Lexeme} {e : Node}
    (h : Derives l ts e us) (hk : k ∈ levels) (hl : l ∈ levels) (hr : rank k ≤ rank l) :
    Derives k ts e us := by
  obtain ⟨n, hn⟩ : ∃ n, rank l = rank k + n := ⟨rank l - rank k, by omega⟩
  induction n generalizing k with
  | zero => exact rank_injective k hk l hl (by omega) ▸ h
  | succ n ih =>
    have hp : k ≠ .primary := by
      rintro rfl
      have hl : rank l ≤ rank .primary := by cases l <;> simp [rank]
      omega
    obtain ⟨d, hd, ht, hrd⟩ := tighter_of_level k hk hp
    exact .loosen ht (ih hd (by omega) (by omega))

theorem operatorLevel_spec : ∀ s ∈ Node.binaryOperators, ∃ d ∈ levels,
    operatorLevel s ∈ levels ∧ s ∈ (operatorLevel s).operators ∧
      (operatorLevel s).tighter? = some d := by decide

theorem level_mem {e : Node} (he : e.Expression) : level e ∈ levels := by
  cases he with
  | binary hs =>
    obtain ⟨d, -, h, -⟩ := operatorLevel_spec _ hs
    exact h
  | _ => simp [level, levels]

/-- The lexemes `ts` spell `e` at its own level, whatever follows. -/
def Spelled (e : Node) (ts : List Lexeme) : Prop := ∀ us, Derives (level e) (ts ++ us) e us

section Places

variable {e : Node} {ts : List Lexeme} (he : e.Expression) (h : Spelled e ts)

include he h

theorem Spelled.loose (us : List Lexeme) : Derives .assignment (ts ++ us) e us :=
  derives_of_rank_le (h us) (by decide) (level_mem he) (Nat.zero_le _)

theorem Spelled.parenthesized (us : List Lexeme) :
    Derives .primary (Printer.parenthesized ts ++ us) e us := by
  have hp := Derives.paren "(" ")" (h.loose he (symbol ")" :: us))
  simpa [Printer.parenthesized, symbol] using hp

theorem Spelled.enclosed {k : Category} (hk : k ∈ levels) (us : List Lexeme) :
    Derives k (Printer.enclosed k e ts ++ us) e us := by
  rw [Printer.enclosed]
  split_ifs with hr
  · exact derives_of_rank_le (h us) hk (level_mem he) hr
  · have hp : rank k ≤ rank .primary := by cases k <;> simp [rank]
    exact derives_of_rank_le (h.parenthesized he us) hk (by decide) hp

end Places

theorem moreItems_derives {es : List Node} (he : ∀ e ∈ es, e.Expression)
    (h : ∀ e ∈ es, Spelled e (expression e)) (close : String) (us : List Lexeme) :
    Derives (.moreItems .assignment close) (moreItems es ++ symbol close :: us) (.list es) us := by
  induction es with
  | nil => exact .noMore _ _
  | cons e es ih =>
    obtain ⟨he₁, he₂⟩ := List.forall_mem_cons.mp he
    obtain ⟨h₁, h₂⟩ := List.forall_mem_cons.mp h
    have hm := Derives.more "," (h₁.loose he₁ _) (ih he₂ h₂)
    simpa [moreItems, symbol] using hm

theorem items_derives {es : List Node} (he : ∀ e ∈ es, e.Expression)
    (h : ∀ e ∈ es, Spelled e (expression e)) (close : String) (us : List Lexeme) :
    Derives (.items .assignment close) (items es ++ symbol close :: us) (.list es) us := by
  cases es with
  | nil => exact .noItems _ _
  | cons e es =>
    obtain ⟨he₁, he₂⟩ := List.forall_mem_cons.mp he
    obtain ⟨h₁, h₂⟩ := List.forall_mem_cons.mp h
    have hm := Derives.someItems (h₁.loose he₁ _) (moreItems_derives he₂ h₂ close us)
    simpa [items] using hm

theorem identifier_derives {k : Category} (hk : k ∈ levels) {x : String} (hx : Node.ProperName x)
    (us : List Lexeme) : Derives k (word x :: us) (.identifier (.text x)) us :=
  derives_of_rank_le (.identifier us hx.2) hk (by decide) (by cases k <;> simp [rank])

theorem expression_spelled {e : Node} (he : e.Expression) : Spelled e (expression e) := by
  induction he with
  | number => exact fun us => .number _ us
  | string => exact fun us => .string _ us
  | boolean b =>
    intro us
    cases b with
    | true => exact .isTrue us
    | false => exact .isFalse us
  | null => exact fun us => .null us
  | identifier hx => exact fun us => .identifier us hx.2
  | assign hx he ih =>
    intro us
    exact Derives.assign (s := "=") (f := none) (by decide) (identifier_derives (by decide) hx _)
      (ih.loose he us)
  | negation hs he ih => exact fun us => .negation _ hs (ih.enclosed he (by decide) us)
  | step hs hx => exact fun us => .stepBefore _ hs (identifier_derives (by decide) hx us)
  | binary hs ha hb iha ihb =>
    intro us
    obtain ⟨d, hd, hl, hm, ht⟩ := operatorLevel_spec _ hs
    have hbin := Derives.binary ht hm (iha.enclosed ha hl (symbol _ :: _))
      (ihb.enclosed hb hd us)
    simpa [expression, level, ht] using hbin
  | call hx he ih =>
    intro us
    have hcall := Derives.call "(" hx.2 (items_derives he ih ")" us)
    simpa [expression, level, symbol, word] using hcall
  | array he ih =>
    intro us
    have harr := Derives.array "[" (items_derives he ih "]" us)
    simpa [expression, level, symbol] using harr
  | index ha hi iha ihi =>
    intro us
    have hidx := Derives.index "[" "]" (iha.enclosed ha (by decide) _)
      (ihi.loose hi (symbol "]" :: us))
    simpa [expression, level, symbol] using hidx

theorem names_derives {ps : List String} (hp : ∀ p ∈ ps, Node.ProperName p) (us : List Lexeme) :
    Derives (.items .name ")") (names (ps.map .text) ++ symbol ")" :: us) (.list (ps.map .text))
      us := by
  have more {ps : List String} (hp : ∀ p ∈ ps, Node.ProperName p) :
      Derives (.moreItems .name ")") (names.moreNames (ps.map .text) ++ symbol ")" :: us)
        (.list (ps.map .text)) us := by
    induction ps with
    | nil => exact .noMore _ _
    | cons p ps ih =>
      obtain ⟨hp₁, hp₂⟩ := List.forall_mem_cons.mp hp
      exact .more _ (.name _ hp₁.2) (ih hp₂)
  cases ps with
  | nil => exact .noItems _ _
  | cons p ps =>
    obtain ⟨hp₁, hp₂⟩ := List.forall_mem_cons.mp hp
    exact .someItems (.name _ hp₁.2) (more hp₂)

theorem declaration_of_expression {e : Node} (he : e.Expression) (x : String) (b : Bool) :
    declaration (.varDecl (.text x) e (.boolean b)) =
      word (if b then "const" else "var") :: word x :: symbol "=" ::
        (expression e ++ [symbol ";"]) := by
  cases he <;> rfl

theorem declaration_derives {d : Node} (hd : d.Declaration) (us : List Lexeme) :
    Derives .declaration (declaration d ++ us) d us := by
  cases hd with
  | uninitialized hx => exact .uninitialized _ _ hx.2
  | @initialized x e b hx he =>
    have hinit := Derives.initialized (k := if b then "const" else "var") "=" ";"
      (by cases b <;> simp) hx.2 ((expression_spelled he).loose he (symbol ";" :: us))
    have hb : decide ((if b then "const" else "var") = "const") = b := by cases b <;> rfl
    rw [hb] at hinit
    simpa [declaration_of_expression he, word, symbol] using hinit

theorem statement_of_expression {e : Node} (he : e.Expression) :
    statement e = expression e ++ [symbol ";"] ∧ init e = expression e ++ [symbol ";"] ∧
      statement (.returnStmt e) = word "return" :: (expression e ++ [symbol ";"]) := by
  cases he <;> exact ⟨rfl, rfl, rfl⟩

theorem statement_of_declaration {d : Node} (hd : d.Declaration) :
    statement d = declaration d ∧ init d = declaration d := by
  cases hd <;> exact ⟨rfl, rfl⟩

theorem body_derives {ss : List Node}
    (h : ∀ s ∈ ss, ∀ us, Derives .statement (statement s ++ us) s us) (us : List Lexeme) :
    Derives .body (statements ss ++ symbol "\x7d" :: us) (.list ss) us := by
  induction ss with
  | nil => exact .bodyEnd _ _
  | cons s ss ih =>
    obtain ⟨h₁, h₂⟩ := List.forall_mem_cons.mp h
    have hm := Derives.bodyMore (h₁ _) (ih h₂)
    simpa [statements] using hm

theorem braced_derives {ss : List Node}
    (h : ∀ s ∈ ss, ∀ us, Derives .statement (statement s ++ us) s us) (us : List Lexeme) :
    Derives .block (braced (statements ss) ++ us) (.block (.list ss)) us := by
  have hb := Derives.block "\x7b" (body_derives h us)
  simpa [braced, symbol] using hb

theorem condition_derives {e : Node} (he : e.Expression) (us : List Lexeme) :
    Derives .assignment (expression e ++ symbol ")" :: us) e (symbol ")" :: us) :=
  (expression_spelled he).loose he _

theorem statement_derives {s : Node} (hs : s.Statement) (us : List Lexeme) :
    Derives .statement (statement s ++ us) s us := by
  induction hs generalizing us with
  | expression he =>
    have h := Derives.ofExpression ((expression_spelled he).loose he _) (.semicolon ";" us)
    simpa [(statement_of_expression he).1, symbol] using h
  | declaration hd =>
    rw [(statement_of_declaration hd).1]
    exact .ofDeclaration (declaration_derives hd us)
  | block hs ih =>
    have h := Derives.ofBlock (braced_derives ih us)
    simpa [statement] using h
  | empty => exact .empty _ _
  | function hx hp hs ih =>
    have h := Derives.function "(" hx.2 (names_derives hp _) (braced_derives ih us)
    simpa [statement, parenthesized, symbol, word] using h
  | ifThen he hs ih =>
    have h := Derives.ifThen "(" ")" (condition_derives he _) (braced_derives ih us)
    simpa [statement, parenthesized, symbol, word] using h
  | ifElse he hs hr ihs ihr =>
    have h := Derives.ifElse "(" ")" (condition_derives he _) (braced_derives ihs _)
      (braced_derives ihr us)
    simpa [statement, parenthesized, symbol, word] using h
  | «while» he hs ih =>
    have h := Derives.while "(" ")" (condition_derives he _) (braced_derives ih us)
    simpa [statement, parenthesized, symbol, word] using h
  | «for» hi he hn hs ih =>
    have hcond us := (expression_spelled he).loose he (symbol ";" :: us)
    rcases hi with hi | hi
    · have h := Derives.forDeclared "(" ";" ")" (declaration_derives hi _) (hcond _)
        (condition_derives hn _) (braced_derives ih us)
      simpa [statement, (statement_of_declaration hi).2, parenthesized, symbol, word] using h
    · have h := Derives.forExpression "(" ";" ";" ")" ((expression_spelled hi).loose hi _) (hcond _)
        (condition_derives hn _) (braced_derives ih us)
      simpa [statement, (statement_of_expression hi).2.1, parenthesized, symbol, word] using h
  | returnNothing => exact .returnNothing _ _
  | returnValue he =>
    have h := Derives.returnValue ";" ((expression_spelled he).loose he (symbol ";" :: us))
    simpa [(statement_of_expression he).2.2, symbol, word] using h
  | delete hx => exact .delete _ _ hx.2

theorem program_derives {ss : List Node} (hs : ∀ s ∈ ss, s.Statement) (v : String) :
    Derives .program (statements ss ++ [(.eof, v)]) (.list ss) [(.eof, v)] := by
  induction ss with
  | nil => exact .programEnd _ _
  | cons s ss ih =>
    obtain ⟨h₁, h₂⟩ := List.forall_mem_cons.mp hs
    have hm := Derives.programMore (statement_derives h₁ _) (ih h₂)
    simpa [statements] using hm

end Printer
end Script
