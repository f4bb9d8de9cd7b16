import Script.Proofs.RoundTrip
import Script.Proofs.WholeNumbers

/-!
# Reading source texts

A source text is read lexeme by lexeme, so a text with any name or any number at one place is read
like one with a certain name or number there, and a text that reads as the lexemes of some
statements is the program of these statements.
-/
namespace Script

namespace Token

variable {line : Int} {rest : List Char} {xs : List Lexeme}

/-- A lexeme is read if it is the segment at the start of the text. -/
theorem readsAs_segment {x : Lexeme} {text : List Char}
    (hx : ∃ d ds, text = d :: ds ∧ segment d (ds ++ rest) = .ok ⟨text.length, some x⟩)
    (h : ∀ line, ReadsAs line rest xs) : ReadsAs line (text ++ rest) (x :: xs) := by
  obtain ⟨d, ds, rfl, hsegment⟩ := hx
  obtain ⟨ts, hts, hbare⟩ := h (ds.foldl lineAfter (lineAfter line d))
  refine ⟨⟨x.1, x.2, line⟩ :: ts, ?_, ?_⟩
  · rw [List.cons_append, scan, hsegment]
    exact congrArg (Except.map _) ((scan_skip ds rest _).trans hts)
  · rw [List.map_cons, hbare]
    rfl

/-- A lexeme stops where a character follows that cannot be part of it. -/
theorem stops_ahead {p : Char → Bool} {c : Char} {cs : List Char} (hc : p c = false) :
    ∀ d ∈ (c :: cs).head?, p d = false := by
  simpa using hc

theorem readsAs_word {x : String} (hx : IsWord x.toList)
    (hr : ∀ c ∈ rest.head?, isWordPart c = false) (h : ∀ line, ReadsAs line rest xs) :
    ReadsAs line (x.toList ++ rest) ((.ident, x) :: xs) :=
  readsAs_segment (segment_word hx hr) h

theorem readsAs_number {n : Nat} (hr : ∀ c ∈ rest.head?, (c.isDigit || decide (c = '.')) = false)
    (h : ∀ line, ReadsAs line rest xs) :
    ReadsAs line ((toString n).toList ++ rest) ((.number, toString n) :: xs) :=
  readsAs_segment (segment_number (Numeral.isNumeral_toString n) hr) h

theorem readsAs_blank (h : ∀ line, ReadsAs line rest xs) : ReadsAs line (' ' :: rest) xs := by
  obtain ⟨ts, hts, hbare⟩ := h (lineAfter line ' ')
  exact ⟨ts, (scan_cons_blank rfl line rest).trans hts, hbare⟩

/-- The tokens that a text begins with come before those that the rest is read as. -/
theorem ReadsAs.prepend {text : List Char} {ys : List Lexeme} (h : ReadsAs line rest xs)
    (hscan : scan 0 line (text ++ rest) =
      ys.foldr (fun x r => r.map (⟨x.1, x.2, line⟩ :: ·)) (scan 0 line rest)) :
    ReadsAs line (text ++ rest) (ys ++ xs) := by
  obtain ⟨ts, hts, hbare⟩ := h
  refine ⟨ys.map (fun x => ⟨x.1, x.2, line⟩) ++ ts, ?_, ?_⟩
  · rw [hscan, hts]
    clear hscan
    induction ys with
    | nil => rfl
    | cons y ys ih =>
      rw [List.foldr_cons, ih]
      rfl
  · rw [List.map_append, hbare, List.map_map, List.append_assoc]
    congr 1
    exact List.map_id' ys

/-- The same where the text that stands ahead ends in a blank. -/
theorem ReadsAs.prependBlank (text : List Char) {front : List Char} {ys : List Lexeme}
    (h : ∀ line, ReadsAs line rest xs) (hfront : front = text ++ [' '])
    (hscan : scan 0 line (text ++ (' ' :: rest)) =
      ys.foldr (fun x r => r.map (⟨x.1, x.2, line⟩ :: ·)) (scan 0 line (' ' :: rest))) :
    ReadsAs line (front ++ rest) (ys ++ xs) := by
  rw [hfront, List.append_assoc]
  exact (readsAs_blank h).prepend hscan

/-- A text on one line that is cut into lexemes and nothing else. -/
theorem readsAs_of_scan {text : List Char}
    (h : scan 0 line text = .ok (xs.map (fun x => ⟨x.1, x.2, line⟩) ++ [⟨.eof, "", line⟩])) :
    ReadsAs line text xs := by
  refine ⟨_, h, ?_⟩
  rw [List.map_append, List.map_map]
  congr 1
  exact List.map_id' xs

theorem toList_append₃ (front middle back : String) :
    (front ++ middle ++ back).toList = front.toList ++ (middle.toList ++ back.toList) := by
  rw [String.toList_append, String.toList_append, List.append_assoc]

end Token

namespace Printer

open Grammar

/-- A step is also read with its operator behind the name. -/
theorem stepAfter_derives {x : String} (hx : Node.ProperName x) (us : List Lexeme) :
    Derives .assignment (word x :: symbol "++" :: us)
      (.unaryOp (.text "++") (.identifier (.text x))) us :=
  derives_of_rank_le (.stepAfter (s := "++") (by decide) (identifier_derives (by decide) hx _))
    (by decide) (by decide) (by decide)

end Printer

namespace Node

open Token

/-- A text is the program that the grammar derives from its lexemes. -/
theorem ofSource_of_derives {source : String} {xs : List Lexeme} {body : Node}
    (h : ReadsAs 1 source.toList xs) (hx : ∀ x ∈ xs, x.1 ≠ .eof)
    (hd : Grammar.Derives .program (xs ++ [(.eof, "")]) body [(.eof, "")]) :
    ofSource source = .ok (.program body) := by
  obtain ⟨ts, hts, hbare⟩ := h
  have hclosed : Grammar.Closed (ts.map Token.bare) := ⟨_, "", hbare, hx⟩
  rw [ofSource_eq_ok_iff hts, ofTokens_eq_ok_iff hclosed, hbare]
  exact ⟨body, "", rfl, hd⟩

end Node
end Script
