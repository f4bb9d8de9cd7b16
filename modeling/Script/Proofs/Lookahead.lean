import Script.Proofs.Grammar

/-!
# How phrases begin and end

What a rule has to look at to choose: the lexemes that a phrase of a category can begin with, and
those behind it that would make it longer. Every phrase but an empty program takes at least one
lexeme.
-/
namespace Script.Grammar

open Category

theorem Ends.suffix {us vs : List Lexeme} (h : Ends us vs) : vs <:+ us := by
  cases h with
  | semicolon => exact List.suffix_cons _ _
  | brace => exact List.suffix_refl _
  | eof => exact List.suffix_refl _

theorem Derives.suffix {k : Category} {ts us : List Lexeme} {e : Node} (h : Derives k ts e us) :
    us <:+ ts := by
  induction h with
  | loosen _ _ ih => exact ih
  | number | string | isTrue | isFalse | null | identifier | name | noItems | noMore | bodyEnd
  | empty => exact List.suffix_cons _ _
  | call _ _ _ ih => exact ih.trans ((List.suffix_cons _ _).trans (List.suffix_cons _ _))
  | paren _ _ _ ih => exact ((List.suffix_cons _ _).trans ih).trans (List.suffix_cons _ _)
  | array _ _ ih | negation _ _ _ ih | stepBefore _ _ _ ih | block _ _ ih =>
    exact ih.trans (List.suffix_cons _ _)
  | index _ _ _ _ ih₁ ih₂ =>
    exact ((List.suffix_cons _ _).trans ih₂).trans ((List.suffix_cons _ _).trans ih₁)
  | stepAfter _ _ ih => exact (List.suffix_cons _ _).trans ih
  | binary _ _ _ _ ih₁ ih₂ | assign _ _ _ ih₁ ih₂ =>
    exact ih₂.trans ((List.suffix_cons _ _).trans ih₁)
  | someItems _ _ ih₁ ih₂ | bodyMore _ _ ih₁ ih₂ | programMore _ _ ih₁ ih₂ => exact ih₂.trans ih₁
  | more _ _ _ ih₁ ih₂ => exact (ih₂.trans ih₁).trans (List.suffix_cons _ _)
  | uninitialized | delete =>
    exact (List.suffix_cons _ _).trans ((List.suffix_cons _ _).trans (List.suffix_cons _ _))
  | initialized _ _ _ _ _ ih =>
    exact ((List.suffix_cons _ _).trans ih).trans
      ((List.suffix_cons _ _).trans ((List.suffix_cons _ _).trans (List.suffix_cons _ _)))
  | ofBlock _ ih | ofDeclaration _ ih => exact ih
  | ofExpression _ hu ih => exact hu.suffix.trans ih
  | function _ _ _ _ ih₁ ih₂ =>
    exact (ih₂.trans ih₁).trans
      ((List.suffix_cons _ _).trans ((List.suffix_cons _ _).trans (List.suffix_cons _ _)))
  | ifThen _ _ _ _ ih₁ ih₂ | «while» _ _ _ _ ih₁ ih₂ =>
    exact (ih₂.trans ((List.suffix_cons _ _).trans ih₁)).trans
      ((List.suffix_cons _ _).trans (List.suffix_cons _ _))
  | ifElse _ _ _ _ _ ih₁ ih₂ ih₃ =>
    exact (ih₃.trans ((List.suffix_cons _ _).trans
      (ih₂.trans ((List.suffix_cons _ _).trans ih₁)))).trans
      ((List.suffix_cons _ _).trans (List.suffix_cons _ _))
  | forDeclared _ _ _ _ _ _ _ ih₁ ih₂ ih₃ ih₄ =>
    exact (ih₄.trans ((List.suffix_cons _ _).trans (ih₃.trans ((List.suffix_cons _ _).trans
      (ih₂.trans ih₁))))).trans ((List.suffix_cons _ _).trans (List.suffix_cons _ _))
  | forExpression _ _ _ _ _ _ _ _ ih₁ ih₂ ih₃ ih₄ =>
    exact (ih₄.trans ((List.suffix_cons _ _).trans (ih₃.trans ((List.suffix_cons _ _).trans
      (ih₂.trans ((List.suffix_cons _ _).trans ih₁)))))).trans
      ((List.suffix_cons _ _).trans (List.suffix_cons _ _))
  | returnNothing => exact (List.suffix_cons _ _).trans (List.suffix_cons _ _)
  | returnValue _ _ ih => exact ((List.suffix_cons _ _).trans ih).trans (List.suffix_cons _ _)
  | programEnd => exact List.suffix_refl _

theorem tighter?_ne_program {c d : Category} (hc : c.tighter? = some d) : d ≠ program := by
  cases c <;> simp_all [tighter?, eq_comm]

/-- A phrase takes at least one lexeme, unless it is a program, which may be empty. -/
theorem Derives.length_lt {k : Category} {ts us : List Lexeme} {e : Node} (h : Derives k ts e us)
    (hk : k ≠ program) : us.length < ts.length := by
  induction h with
  | loosen hc _ ih => exact ih (tighter?_ne_program hc)
  | binary hc _ ha hb ih =>
    have h₁ := ih hk
    have h₂ := hb.suffix.length_le
    simp only [List.length_cons] at h₁
    omega
  | someItems he _ _ ih | bodyMore he _ _ ih =>
    exact Nat.lt_of_lt_of_le (ih (by simp)) he.suffix.length_le
  | more _ he _ _ ih =>
    exact Nat.lt_succ_of_lt (Nat.lt_of_lt_of_le (ih (by simp)) he.suffix.length_le)
  | ofExpression _ hu ih => exact Nat.lt_of_le_of_lt hu.suffix.length_le (ih (by simp))
  | programEnd | programMore => exact absurd rfl hk
  | _ => grind [Derives.suffix, List.IsSuffix.length_le]

def statementWords : List String :=
  ["var", "const", "if", "else", "while", "for", "function", "return", "delete"]

/-- What an operand without a prefix operator begins with. -/
def BeginsOperand : Lexeme → Prop
  | (.number, _) | (.string, _) => True
  | (.ident, s) => s ∉ statementWords
  | (.symbol s, _) => s = "(" ∨ s = "["
  | (.eof, _) => False

def BeginsExpression (x : Lexeme) : Prop :=
  BeginsOperand x ∨ ∃ s ∈ negations ++ steps, x.1 = .symbol s

/-- What a phrase of a category begins with, as far as a rule depends on it. -/
def Begins : Category → Lexeme → Prop
  | primary | indexed => BeginsOperand
  | assignment | logical | comparison | additive | multiplicative | unary => BeginsExpression
  | name => fun x => x.1 = .ident
  | declaration => fun x => x = (.ident, "var") ∨ x = (.ident, "const")
  | block => fun x => x.1 = .symbol "\x7b"
  | statement => fun x => x.1 ≠ .eof ∧ x.1 ≠ .symbol "\x7d" ∧ x ≠ (.ident, "else")
  | items .. | moreItems .. | body | program => fun _ => True

theorem statementWords_subset : statementWords ⊆ Parse.keywords := by decide

theorem IsName.not_statementWord {s : String} (hs : IsName s) : s ∉ statementWords :=
  fun h => hs (statementWords_subset h)

theorem Begins.loosen {c d : Category} {x : Lexeme} (hc : c.tighter? = some d) (h : Begins d x) :
    Begins c x := by
  cases c <;> simp only [tighter?, Option.some.injEq, reduceCtorEq] at hc <;> subst hc
  all_goals first | exact h | exact Or.inl h

/-- A statement does not begin with what closes the statements around it. -/
theorem Begins.statement_of_expression {x : Lexeme} (h : BeginsExpression x) :
    Begins statement x := by
  obtain ⟨k, v⟩ := x
  rcases h with h | ⟨s, hs, hk⟩
  · cases k with
    | number => simp [Begins]
    | string => simp [Begins]
    | ident =>
      refine ⟨by simp, by simp, ?_⟩
      rintro ⟨rfl⟩
      exact h (by decide)
    | eof => exact h.elim
    | symbol s => rcases h with rfl | rfl <;> simp [Begins]
  · obtain rfl : k = .symbol s := hk
    refine ⟨by simp, ?_, by simp⟩
    rintro ⟨rfl⟩
    exact absurd hs (by decide)

theorem Derives.begins {k : Category} {ts us : List Lexeme} {e : Node} (h : Derives k ts e us) :
    ∃ x xs, ts = x :: xs ∧ Begins k x := by
  induction h with
  | loosen hc _ ih =>
    obtain ⟨x, xs, rfl, hx⟩ := ih
    exact ⟨x, xs, rfl, hx.loosen hc⟩
  | number | string => exact ⟨_, _, rfl, trivial⟩
  | isTrue | isFalse | null => exact ⟨_, _, rfl, show _ ∉ statementWords by decide⟩
  | identifier _ hs | call _ hs => exact ⟨_, _, rfl, IsName.not_statementWord hs⟩
  | paren => exact ⟨_, _, rfl, .inl rfl⟩
  | array => exact ⟨_, _, rfl, .inr rfl⟩
  | index _ _ _ _ ih | assign _ _ _ ih => exact ih
  | binary _ _ _ _ ih => exact ih
  | negation _ hs => exact ⟨_, _, rfl, .inr ⟨_, List.mem_append_left _ hs, rfl⟩⟩
  | stepBefore _ hs => exact ⟨_, _, rfl, .inr ⟨_, List.mem_append_right _ hs, rfl⟩⟩
  | stepAfter _ _ ih =>
    obtain ⟨x, xs, hx, hb⟩ := ih
    exact ⟨x, xs, hx, .inl hb⟩
  | name => exact ⟨_, _, rfl, rfl⟩
  | noItems | noMore | more | bodyEnd | programEnd => exact ⟨_, _, rfl, trivial⟩
  | someItems _ _ ih | bodyMore _ _ ih | programMore _ _ ih =>
    obtain ⟨x, xs, hx, -⟩ := ih
    exact ⟨x, xs, hx, trivial⟩
  | uninitialized => exact ⟨_, _, rfl, .inl rfl⟩
  | initialized _ _ hk =>
    refine ⟨_, _, rfl, ?_⟩
    rcases hk with rfl | rfl
    · exact .inl rfl
    · exact .inr rfl
  | block => exact ⟨_, _, rfl, rfl⟩
  | ofBlock _ ih =>
    obtain ⟨⟨k, v⟩, xs, hx, hb⟩ := ih
    obtain rfl : k = .symbol "\x7b" := hb
    exact ⟨_, xs, hx, by simp [Begins]⟩
  | ofDeclaration _ ih =>
    obtain ⟨x, xs, hx, rfl | rfl⟩ := ih
    · exact ⟨_, xs, hx, by simp [Begins]⟩
    · exact ⟨_, xs, hx, by simp [Begins]⟩
  | ofExpression _ _ ih =>
    obtain ⟨x, xs, hx, hb⟩ := ih
    exact ⟨x, xs, hx, Begins.statement_of_expression hb⟩
  | empty | function | ifThen | ifElse | «while» | forDeclared | forExpression | returnNothing
  | returnValue | delete => exact ⟨_, _, rfl, by simp [Begins]⟩

/-- The symbols that make a phrase of a level longer when they stand behind it. -/
def continuing : Category → List String
  | primary => ["("]
  | indexed => ["[", "("]
  | unary => ["++", "--", "[", "("]
  | multiplicative => ["*", "/", "%", "**", "++", "--", "[", "("]
  | additive => ["+", "-", "*", "/", "%", "**", "++", "--", "[", "("]
  | comparison =>
      ["==", "!=", ">", ">=", "<", "<=", "+", "-", "*", "/", "%", "**", "++", "--", "[", "("]
  | logical =>
      ["&&", "||", "==", "!=", ">", ">=", "<", "<=", "+", "-", "*", "/", "%", "**", "++", "--",
        "[", "("]
  | assignment =>
      ["=", "+=", "-=", "*=", "/=", "%=", "&&", "||", "==", "!=", ">", ">=", "<", "<=", "+", "-",
        "*", "/", "%", "**", "++", "--", "[", "("]
  | _ => []

/-- What stands behind a phrase does not make it longer. -/
def Stops (k : Category) : List Lexeme → Prop
  | (.symbol s, _) :: _ => s ∉ continuing k
  | (.ident, s) :: _ => k = statement → s ≠ "else"
  | _ => True

theorem continuing_tighter {c d : Category} (hc : c.tighter? = some d) :
    continuing d ⊆ continuing c := by
  cases c <;> simp only [tighter?, Option.some.injEq, reduceCtorEq] at hc <;> subst hc <;> decide

theorem operators_subset_continuing (c : Category) : c.operators ⊆ continuing c := by
  cases c <;> simp only [operators, continuing, List.nil_subset] <;> decide

/-- An operator of a level ends the operand before it. -/
theorem operators_stop {c d : Category} {s : String} (hc : c.tighter? = some d)
    (hs : s ∈ c.operators) : s ∉ continuing d := by
  have h : ∀ s ∈ c.operators, s ∉ continuing d := by
    cases c <;> simp only [tighter?, Option.some.injEq, reduceCtorEq] at hc <;> subst hc <;> decide
  exact h s hs

theorem Stops.tighter {c d : Category} {us : List Lexeme} (hc : c.tighter? = some d)
    (h : Stops c us) : Stops d us := by
  match us, h with
  | [], _ => trivial
  | (.symbol s, _) :: _, h => exact fun hs => h (continuing_tighter hc hs)
  | (.ident, s) :: _, _ => exact fun hd => absurd hd (by cases c <;> simp_all [tighter?, eq_comm])
  | (.number, _) :: _, _ => trivial
  | (.string, _) :: _, _ => trivial
  | (.eof, _) :: _, _ => trivial

/-- Behind an item stands a comma or the closing symbol. -/
theorem Derives.stops_item {k c : Category} {close : String} {ts us : List Lexeme} {e : Node}
    (h : Derives (moreItems c close) ts e us) (hcomma : "," ∉ continuing k)
    (hclose : close ∉ continuing k) : Stops k ts := by
  cases h with
  | loosen hc => cases hc
  | binary hc => cases hc
  | noMore => exact hclose
  | more => exact hcomma

/-- Behind a statement stands another one, or what closes the statements around it. -/
theorem Derives.stops_statement {k : Category} {ts us : List Lexeme} {e : Node}
    (h : Derives k ts e us) (hk : k = body ∨ k = program) : Stops statement ts := by
  have hs {x : Lexeme} {xs : List Lexeme} (hx : Begins statement x) :
      Stops statement (x :: xs) := by
    obtain ⟨k, v⟩ := x
    cases k with
    | ident => exact fun _ hv => hx.2.2 (by rw [hv])
    | symbol s => simp [Stops, continuing]
    | number => trivial
    | string => trivial
    | eof => trivial
  cases h with
  | bodyEnd => simp [Stops, continuing]
  | programEnd => trivial
  | bodyMore he | programMore he =>
    obtain ⟨x, xs, rfl, hx⟩ := he.begins
    exact hs hx
  | loosen hc | binary hc => rcases hk with rfl | rfl <;> cases hc
  | _ => simp at hk

end Script.Grammar
