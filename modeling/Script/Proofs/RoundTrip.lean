import Script.Proofs.Layout
import Script.Proofs.Printing

/-!
# Reading what is printed

Whatever is read from a text is a well-formed program, and a well-formed program is read back from
its printed text.
-/
namespace Script

open Token (Genuine)

namespace Printer

/-- A lexeme that can be written down. -/
def Spellable (x : Lexeme) : Prop := Genuine x ∧ x.1 ≠ .eof

def Writable (xs : List Lexeme) : Prop := ∀ x ∈ xs, Spellable x

@[simp] theorem writable_nil : Writable [] := by simp [Writable]

@[simp] theorem writable_cons {x : Lexeme} {xs : List Lexeme} :
    Writable (x :: xs) ↔ Spellable x ∧ Writable xs := by
  simp [Writable]

@[simp] theorem writable_append {xs ys : List Lexeme} :
    Writable (xs ++ ys) ↔ Writable xs ∧ Writable ys := by
  simp only [Writable, List.mem_append]
  constructor
  · intro h
    exact ⟨fun x hx => h x (.inl hx), fun x hx => h x (.inr hx)⟩
  · rintro ⟨hxs, hys⟩ x (hx | hx)
    · exact hxs x hx
    · exact hys x hx

theorem symbol_spellable {s : String} (hs : s ∈ Token.symbols) : Spellable (symbol s) :=
  ⟨⟨rfl, hs⟩, by simp [symbol]⟩

theorem name_spellable {x : String} (hx : Node.ProperName x) : Spellable (word x) :=
  ⟨hx.1, by simp [word]⟩

theorem keyword_spellable (s : String) (hs : s ∈ Parse.keywords) : Spellable (word s) := by
  have h : ∀ s ∈ Parse.keywords, Token.IsWord s.toList := by decide
  exact ⟨h s hs, by simp [word]⟩

theorem operator_spellable {s : String}
    (hs : s ∈ Node.binaryOperators ++ Grammar.negations ++ Grammar.steps) :
    Spellable (symbol s) := by
  have h : ∀ s ∈ Node.binaryOperators ++ Grammar.negations ++ Grammar.steps,
      s ∈ Token.symbols := by decide
  exact symbol_spellable (h s hs)

theorem punctuation_spellable :
    ∀ s ∈ [",", ";", "=", "[", "]", "(", ")", "\x7b", "\x7d"], Spellable (symbol s) := by
  have h : ∀ s ∈ [",", ";", "=", "[", "]", "(", ")", "\x7b", "\x7d"], s ∈ Token.symbols := by decide
  exact fun s hs => symbol_spellable (h s hs)

@[simp] theorem writable_parenthesized {xs : List Lexeme} :
    Writable (parenthesized xs) ↔ Writable xs := by
  have hp := punctuation_spellable
  simp [parenthesized, hp "(", hp ")"]

@[simp] theorem writable_braced {xs : List Lexeme} : Writable (braced xs) ↔ Writable xs := by
  have hp := punctuation_spellable
  simp [braced, hp "\x7b", hp "\x7d"]

@[simp] theorem writable_enclosed {k : Grammar.Category} {e : Node} {xs : List Lexeme} :
    Writable (enclosed k e xs) ↔ Writable xs := by
  rw [enclosed]
  split_ifs <;> simp

theorem moreItems_writable {es : List Node} (h : ∀ e ∈ es, Writable (expression e)) :
    Writable (moreItems es) := by
  induction es with
  | nil => simp [moreItems]
  | cons e es ih =>
    obtain ⟨h₁, h₂⟩ := List.forall_mem_cons.mp h
    have hc := punctuation_spellable "," (by decide)
    simp [moreItems, hc, h₁, ih h₂]

theorem items_writable {es : List Node} (h : ∀ e ∈ es, Writable (expression e)) :
    Writable (items es) := by
  cases es with
  | nil => simp [items]
  | cons e es =>
    obtain ⟨h₁, h₂⟩ := List.forall_mem_cons.mp h
    simp [items, h₁, moreItems_writable h₂]

theorem expression_writable {e : Node} (he : e.Expression) : Writable (expression e) := by
  have hp := punctuation_spellable
  have hk := keyword_spellable
  induction he with
  | number hs => simpa [expression, Spellable, Genuine] using hs
  | string hs => simpa [expression, Spellable, Genuine] using hs
  | boolean b => cases b <;> simp [expression, hk "true" (by decide), hk "false" (by decide)]
  | null => simp [expression, hk "null" (by decide)]
  | identifier hx => simp [expression, name_spellable hx]
  | assign hx he ih => simp [expression, name_spellable hx, hp "=" (by decide), ih]
  | @negation s e hs he ih =>
    have h := operator_spellable (s := s) (by simp [hs])
    simp [expression, h, ih]
  | @step s x hs hx =>
    have h := operator_spellable (s := s) (by simp [hs])
    simp [expression, h, name_spellable hx]
  | @binary s a b hs ha hb iha ihb =>
    have h := operator_spellable (s := s) (by simp [hs])
    simp [expression, h, iha, ihb]
  | call hx he ih =>
    simp [expression, name_spellable hx, hp "(" (by decide), hp ")" (by decide), items_writable ih]
  | array he ih =>
    simp [expression, hp "[" (by decide), hp "]" (by decide), items_writable ih]
  | index ha hi iha ihi =>
    simp [expression, hp "[" (by decide), hp "]" (by decide), iha, ihi]

theorem moreNames_writable {ps : List String} (hp : ∀ p ∈ ps, Node.ProperName p) :
    Writable (names.moreNames (ps.map .text)) := by
  induction ps with
  | nil => simp [names.moreNames]
  | cons p ps ih =>
    obtain ⟨hp₁, hp₂⟩ := List.forall_mem_cons.mp hp
    have hc := punctuation_spellable "," (by decide)
    simp [names.moreNames, hc, name_spellable hp₁, ih hp₂]

theorem names_writable {ps : List String} (hp : ∀ p ∈ ps, Node.ProperName p) :
    Writable (names (ps.map .text)) := by
  cases ps with
  | nil => simp [names]
  | cons p ps =>
    obtain ⟨hp₁, hp₂⟩ := List.forall_mem_cons.mp hp
    simp [names, name_spellable hp₁, moreNames_writable hp₂]

theorem declaration_writable {d : Node} (hd : d.Declaration) : Writable (declaration d) := by
  have hp := punctuation_spellable
  have hk := keyword_spellable
  cases hd with
  | uninitialized hx =>
    simp [declaration, name_spellable hx, hk "var" (by decide), hp ";" (by decide)]
  | initialized b hx he =>
    rw [declaration_of_expression he]
    cases b <;> simp [name_spellable hx, hk "var" (by decide), hk "const" (by decide),
      hp "=" (by decide), hp ";" (by decide), expression_writable he]

theorem statements_writable {ss : List Node} (h : ∀ s ∈ ss, Writable (statement s)) :
    Writable (statements ss) := by
  induction ss with
  | nil => simp [statements]
  | cons s ss ih =>
    obtain ⟨h₁, h₂⟩ := List.forall_mem_cons.mp h
    simp [statements, h₁, ih h₂]

theorem init_writable {i : Node} (hi : i.Declaration ∨ i.Expression) : Writable (init i) := by
  rcases hi with hi | hi
  · rw [(statement_of_declaration hi).2]
    exact declaration_writable hi
  · rw [(statement_of_expression hi).2.1]
    simp [expression_writable hi, punctuation_spellable ";" (by decide)]

theorem statement_writable {s : Node} (hs : s.Statement) : Writable (statement s) := by
  have hp := punctuation_spellable ";" (by decide)
  have hk := keyword_spellable
  induction hs with
  | expression he => simp [(statement_of_expression he).1, expression_writable he, hp]
  | declaration hd =>
    rw [(statement_of_declaration hd).1]
    exact declaration_writable hd
  | block hs ih => simp [statement, statements_writable ih]
  | empty => simp [statement, hp]
  | function hx hps hs ih =>
    simp [statement, name_spellable hx, hk "function" (by decide), names_writable hps,
      statements_writable ih]
  | ifThen he hs ih =>
    simp [statement, hk "if" (by decide), expression_writable he, statements_writable ih]
  | ifElse he hs hr ihs ihr =>
    simp [statement, hk "if" (by decide), hk "else" (by decide), expression_writable he,
      statements_writable ihs, statements_writable ihr]
  | «while» he hs ih =>
    simp [statement, hk "while" (by decide), expression_writable he, statements_writable ih]
  | «for» hi he hn hs ih =>
    simp [statement, hk "for" (by decide), hp, init_writable hi, expression_writable he,
      expression_writable hn, statements_writable ih]
  | returnNothing => simp [statement, hk "return" (by decide), hp]
  | returnValue he =>
    simp [(statement_of_expression he).2.2, hk "return" (by decide), expression_writable he, hp]
  | delete hx => simp [statement, name_spellable hx, hk "delete" (by decide), hp]

end Printer

namespace Node

open Parse.Cursor

theorem viewOf_subset (ts : List Token) : ∀ x ∈ viewOf ts, ∃ t ∈ ts, t.bare = x := by
  induction ts with
  | nil => simp [viewOf]
  | cons t ts ih =>
    intro x hx
    rw [viewOf] at hx
    split at hx
    · exact ⟨t, by simp, (List.mem_singleton.mp hx).symm⟩
    · rcases List.mem_cons.mp hx with rfl | hx
      · exact ⟨t, by simp, rfl⟩
      · obtain ⟨u, hu, hb⟩ := ih x hx
        exact ⟨u, by simp [hu], hb⟩

theorem wellFormed_of_ofSource {source : String} {p : Node} (h : ofSource source = .ok p) :
    p.WellFormed := by
  cases ht : Token.tokenize source with
  | error e => simp [ofSource, ht] at h
  | ok ts =>
    have hp := (ofSource_eq_ok_iff ht p).mp h
    obtain ⟨hg, u, hu, hk⟩ := Token.scan_genuine ht
    cases ts with
    | nil => cases hu
    | cons t ts =>
      obtain ⟨body, us, rfl, hd⟩ := Parse.ofTokens_sound ⟨u, hu, hk⟩ hp
      have hview : ∀ x ∈ view ⟨t, ts⟩, Token.Genuine x := by
        intro x hx
        obtain ⟨v, hv, rfl⟩ := viewOf_subset _ x hx
        exact hg v hv
      obtain ⟨ss, rfl, hs⟩ := shape_of_derives hd hview
      exact .program hs

theorem ofSource_text {p : Node} (hp : p.WellFormed) : ofSource (Printer.text p) = .ok p := by
  obtain ⟨hs⟩ := hp
  rename_i ss
  have hw := Printer.statements_writable fun s h => Printer.statement_writable (hs s h)
  obtain ⟨ts, hts, hm⟩ := Token.tokenize_spaced hw
  have hclosed : Grammar.Closed (ts.map Token.bare) := ⟨_, "", hm, fun x hx => (hw x hx).2⟩
  rw [Printer.text, Printer.program, ofSource_eq_ok_iff hts, ofTokens_eq_ok_iff hclosed, hm]
  exact ⟨.list ss, "", rfl, Printer.program_derives hs ""⟩

/-- A text with the same tokens as the printed one. -/
theorem ofSource_of_tokens {source : String} {p : Node} (hp : p.WellFormed)
    (h : Token.tokenize source = Token.tokenize (Printer.text p)) : ofSource source = .ok p := by
  rw [← ofSource_text hp, ofSource, ofSource, h]

/-- The programs that texts stand for are the well-formed ones, and each is read back from its
printed text. -/
theorem ofSource_image_and_round_trip :
    (∀ source p, ofSource source = .ok p → p.WellFormed) ∧
      ∀ p : Node, p.WellFormed → ofSource (Printer.text p) = .ok p :=
  ⟨fun _ _ => wellFormed_of_ofSource, fun _ => ofSource_text⟩

/-- The program `x = a - (b - 1) * -c;`. -/
def grouped : Node :=
  .program (.list [.assign (.text "x") (.binaryOp (.text "-") (.identifier (.text "a"))
    (.binaryOp (.text "*")
      (.binaryOp (.text "-") (.identifier (.text "b")) (.numberLiteral (.text "1")))
      (.unaryOp (.text "-") (.identifier (.text "c")))))])

theorem grouped_wellFormed : grouped.WellFormed := by
  have hname {x : String} (h : ProperName x) : Expression (.identifier (.text x)) := .identifier h
  have hone : Token.IsNumeral "1".toList := .whole (by decide) (List.all_eq_true.mp (by decide))
  have hb := Expression.binary (s := "-") (by decide) (hname (x := "b") (by decide)) (.number hone)
  have hc := Expression.negation (s := "-") (by decide) (hname (x := "c") (by decide))
  have ha := Expression.binary (s := "-") (by decide) (hname (x := "a") (by decide))
    (.binary (s := "*") (by decide) hb hc)
  refine .program fun s hs => ?_
  rw [List.mem_singleton.mp hs]
  exact .expression (.assign (by decide) ha)

theorem grouped_round_trip :
    Printer.text grouped = "x = a - ( b - 1 ) * - c ;" ∧
      ofSource "x = a - ( b - 1 ) * - c ;" = .ok grouped ∧ grouped.WellFormed := by
  have ht : Printer.text grouped = "x = a - ( b - 1 ) * - c ;" := by decide +kernel
  have hr := ofSource_image_and_round_trip.2 grouped grouped_wellFormed
  rw [ht] at hr
  exact ⟨ht, hr, ofSource_image_and_round_trip.1 _ grouped hr⟩

end Node
end Script
