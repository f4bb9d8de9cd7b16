import Script.Proofs.Soundness
import Script.Proofs.Completeness

/-!
# What is accepted

A token list with one end token, which closes it, is read as a program exactly if the grammar
derives that program from its lexemes. So no list has two readings, and the lines of the tokens have
no influence on the reading.
-/
namespace Script

namespace Grammar

/-- Lexemes with one end among them, which is the last. -/
def Closed (xs : List Lexeme) : Prop :=
  ∃ front v, xs = front ++ [(.eof, v)] ∧ ∀ x ∈ front, x.1 ≠ .eof

def IsProgram (xs : List Lexeme) (p : Node) : Prop :=
  ∃ body v, p = .program body ∧ Derives .program xs body [(.eof, v)]

theorem Derives.rest_of_program {ts us : List Lexeme} {e : Node} (h : Derives .program ts e us) :
    ∃ v vs, us = (.eof, v) :: vs := by
  generalize hk : Category.program = k at h
  induction h with
  | programEnd v us => exact ⟨v, us, rfl⟩
  | programMore _ _ _ ih => exact ih hk
  | loosen hc | binary hc =>
    subst hk
    cases hc
  | _ => cases hk

/-- Nothing stands behind the end. -/
theorem Closed.eq_nil_of_suffix {xs vs : List Lexeme} {v : String} (h : Closed xs)
    (hs : (.eof, v) :: vs <:+ xs) : vs = [] := by
  obtain ⟨front, w, rfl, hfront⟩ := h
  obtain ⟨before, hb⟩ := hs
  by_contra hvs
  have hfront' : before ++ (.eof, v) :: vs.dropLast = front := by
    have hd := congrArg List.dropLast hb
    rwa [List.dropLast_append_of_ne_nil (by simp), List.dropLast_cons_of_ne_nil hvs,
      List.dropLast_concat] at hd
  have hmem : (.eof, v) ∈ front := by simp [← hfront']
  exact hfront _ hmem rfl

end Grammar

namespace Node

open Grammar Parse.Cursor

theorem viewOf_of_closed {ts : List Token} (h : Closed (ts.map Token.bare)) :
    viewOf ts = ts.map Token.bare := by
  obtain ⟨front, v, hm, hfront⟩ := h
  induction front generalizing ts with
  | nil =>
    obtain ⟨t, rfl, ht⟩ := List.map_eq_singleton_iff.mp hm
    have hk : t.kind = .eof := congrArg Prod.fst ht
    simp [viewOf, hk]
  | cons x front ih =>
    obtain ⟨t, us, rfl, rfl, hus⟩ := List.map_eq_cons_iff.mp hm
    obtain ⟨hx, hfront⟩ := List.forall_mem_cons.mp hfront
    have hk : t.kind ≠ .eof := hx
    simp [viewOf, hk, ih hus hfront]

theorem hasEnd_of_closed {t : Token} {ts : List Token} (h : Closed ((t :: ts).map Token.bare)) :
    HasEnd ⟨t, ts⟩ := by
  obtain ⟨front, v, hm, -⟩ := h
  have hmem : ((.eof, v) : Lexeme) ∈ (t :: ts).map Token.bare := by simp [hm]
  obtain ⟨u, hu, hb⟩ := List.mem_map.mp hmem
  exact ⟨u, hu, congrArg Prod.fst hb⟩

/-- Reading succeeds exactly on what the grammar derives. -/
theorem ofTokens_eq_ok_iff {ts : List Token} (h : Closed (ts.map Token.bare)) (p : Node) :
    ofTokens ts = .ok p ↔ IsProgram (ts.map Token.bare) p := by
  cases ts with
  | nil =>
    obtain ⟨front, v, hm, -⟩ := h
    simp at hm
  | cons t ts =>
    have hend := hasEnd_of_closed h
    have hview : view ⟨t, ts⟩ = (t :: ts).map Token.bare := viewOf_of_closed h
    constructor
    · intro hp
      obtain ⟨body, us, rfl, hd⟩ := Parse.ofTokens_sound hend hp
      rw [hview] at hd
      obtain ⟨v, vs, rfl⟩ := hd.rest_of_program
      obtain rfl := h.eq_nil_of_suffix hd.suffix
      exact ⟨body, v, rfl, hd⟩
    · rintro ⟨body, v, rfl, hd⟩
      rw [← hview] at hd
      exact Parse.ofTokens_complete hend hd

/-- Two token lists that differ in nothing but the lines are read alike. -/
theorem ofTokens_eq_ok_congr {ts us : List Token} (h : Closed (ts.map Token.bare))
    (hb : us.map Token.bare = ts.map Token.bare) (p : Node) :
    ofTokens us = .ok p ↔ ofTokens ts = .ok p := by
  rw [ofTokens_eq_ok_iff h, ofTokens_eq_ok_iff (hb ▸ h), hb]

/-- The parser accepts exactly its grammar: what is read is what the grammar derives, no two
programs are derived from the same tokens, and the lines do not matter. -/
theorem ofTokens_exactly_grammar {ts : List Token} (h : Closed (ts.map Token.bare)) :
    (∀ p, ofTokens ts = .ok p ↔ IsProgram (ts.map Token.bare) p) ∧
      (∀ p q, IsProgram (ts.map Token.bare) p → IsProgram (ts.map Token.bare) q → p = q) ∧
      ∀ us : List Token, us.map Token.bare = ts.map Token.bare →
        ∀ p, ofTokens us = .ok p ↔ ofTokens ts = .ok p := by
  refine ⟨ofTokens_eq_ok_iff h, fun p q hp hq => ?_, fun us hb p => ofTokens_eq_ok_congr h hb p⟩
  have hp' := (ofTokens_eq_ok_iff h p).mpr hp
  have hq' := (ofTokens_eq_ok_iff h q).mpr hq
  exact Except.ok.inj (hp'.symm.trans hq')

/-- The tokens of `x += - 1`, with lines in no order and a value that is not the kind's own text. -/
def scattered : List Token :=
  [⟨.ident, "x", 4⟩, ⟨.symbol "+=", "", 2⟩, ⟨.symbol "-", "minus", -1⟩, ⟨.number, "1", 2⟩,
    ⟨.eof, "", 9⟩]

theorem scattered_read :
    Closed (scattered.map Token.bare) ∧
      ofTokens scattered = .ok (.program (.list [.assign (.text "x") (.binaryOp (.text "+")
        (.identifier (.text "x")) (.unaryOp (.text "minus") (.numberLiteral (.text "1"))))])) := by
  have hclosed : Closed (scattered.map Token.bare) :=
    ⟨(scattered.map Token.bare).dropLast, "", rfl, by decide⟩
  refine ⟨hclosed, ((ofTokens_exactly_grammar hclosed).1 _).mpr ⟨_, "", rfl, ?_⟩⟩
  have hx : Derives .logical (scattered.map Token.bare) (.identifier (.text "x")) _ :=
    .loosen rfl (.loosen rfl (.loosen rfl (.loosen rfl (.loosen rfl (.loosen rfl
      (.identifier _ (show "x" ∉ Parse.keywords by decide)))))))
  have hone : Derives .unary [(.number, "1"), (.eof, "")] (.numberLiteral (.text "1")) _ :=
    .loosen rfl (.loosen rfl (.number "1" _))
  have hminus := Derives.negation "minus" (s := "-") (by decide) hone
  have hvalue : Derives .assignment _ _ _ :=
    .loosen rfl (.loosen rfl (.loosen rfl (.loosen rfl (.loosen rfl hminus))))
  have hassign := Derives.assign (s := "+=") (f := some "+") (by decide) hx hvalue
  exact .programMore (.ofExpression hassign (.eof "" [])) (.programEnd "" [])

end Node
end Script
