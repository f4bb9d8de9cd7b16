import Script.Proofs.Acceptance
import Script.Proofs.Segmentation

/-!
# Layout

A text that spells lexemes with blanks and comments around them has these lexemes for its tokens,
whatever the blanks and comments are. So texts that differ only in layout are the same program.
-/
namespace Script

namespace Token

/-- Blanks, comments with the end of their line, and closed comments. -/
inductive Filler : List Char → Prop
  | nil : Filler []
  | blank {c cs} (hc : isLayout c = true) (h : Filler cs) : Filler (c :: cs)
  | line {body cs} (hb : '\n' ∉ body) (h : Filler cs) : Filler ('/' :: '/' :: (body ++ '\n' :: cs))
  | block {body cs} (hb : ¬ ['*', '/'] <:+: body) (h : Filler cs) :
      Filler ('/' :: '*' :: (body ++ '*' :: '/' :: cs))

/-- Filler at the end of a text, where the last comment may stay open. -/
inductive Trailing : List Char → Prop
  | filler {cs} (h : Filler cs) : Trailing cs
  | line {cs body} (h : Filler cs) (hb : '\n' ∉ body) : Trailing (cs ++ '/' :: '/' :: body)
  | block {cs body} (h : Filler cs) (hb : ¬ ['*', '/'] <:+: body) :
      Trailing (cs ++ '/' :: '*' :: body)

/-- The text spells lexemes that have another one ahead of them: a blank comes before each. -/
inductive Follows : List Lexeme → List Char → Prop
  | done {tail} (ht : Trailing tail) (hb : Bounded tail) : Follows [] tail
  | next {x xs gap cs rest} (hn : gap ≠ []) (hb : Bounded gap) (hg : Filler gap)
      (hx : Spells x cs) (h : Follows xs rest) : Follows (x :: xs) (gap ++ (cs ++ rest))

/-- The text spells the lexemes, with filler around them. -/
inductive Renders : List Lexeme → List Char → Prop
  | nothing {cs} (h : Trailing cs) : Renders [] cs
  | lexemes {lead x cs xs rest} (hl : Filler lead) (hx : Spells x cs) (h : Follows xs rest) :
      Renders (x :: xs) (lead ++ (cs ++ rest))

theorem Follows.bounded {xs : List Lexeme} {cs : List Char} (h : Follows xs cs) : Bounded cs := by
  cases h with
  | done ht hb => exact hb
  | next hn hb hg hx h =>
    obtain ⟨c, gap, rfl⟩ := List.exists_cons_of_ne_nil hn
    exact hb

theorem scan_layout {text rest : List Char} (h : Fits none text rest) (line : Int) :
    scan 0 line (text ++ rest) = scan 0 (text.foldl lineAfter line) rest :=
  (scan_fits h line).trans (congrFun Except.map_id _)

/-- Blanks can be passed over one by one, although the lexer takes all of them at once. -/
theorem scan_cons_blank {c : Char} (hc : isLayout c = true) (line : Int) (cs : List Char) :
    scan 0 line (c :: cs) = scan 0 (lineAfter line c) cs := by
  obtain ⟨ds, rest, rfl, hds, hr⟩ := exists_run isLayout cs
  have hall : Fits none (c :: ds) rest :=
    .blanks (by simp) (List.forall_mem_cons.mpr ⟨hc, hds⟩) hr
  have hfirst := scan_layout hall line
  rw [List.cons_append, List.foldl_cons] at hfirst
  rw [hfirst]
  by_cases hn : ds = []
  · rw [hn, List.foldl_nil, List.nil_append]
  · exact (scan_layout (.blanks hn hds hr) _).symm

theorem scan_filler {gap : List Char} (h : Filler gap) (rest : List Char) (line : Int) :
    scan 0 line (gap ++ rest) = scan 0 (gap.foldl lineAfter line) rest := by
  induction h generalizing line with
  | nil => rfl
  | blank hc _ ih => exact (scan_cons_blank hc line _).trans (ih _)
  | @line body cs hb _ ih =>
    have hcomment : Fits none ('/' :: '/' :: body) ('\n' :: (cs ++ rest)) :=
      .lineComment hb (by simp)
    have hscan := scan_layout hcomment line
    rw [scan_cons_blank rfl, ih] at hscan
    simpa [List.foldl_append] using hscan
  | @block body cs hb _ ih =>
    have hscan := scan_layout (.blockComment (cs ++ rest) hb) line
    rw [ih] at hscan
    simpa [List.foldl_append] using hscan

theorem scan_trailing {tail : List Char} (h : Trailing tail) (line : Int) :
    scan 0 line tail = .ok [⟨.eof, "", tail.foldl lineAfter line⟩] := by
  cases h with
  | filler h =>
    have hscan := scan_filler h [] line
    rwa [List.append_nil] at hscan
  | @line cs body h hb =>
    have hcomment : Fits none ('/' :: '/' :: body) [] := .lineComment hb (by simp)
    have hscan := scan_layout hcomment (cs.foldl lineAfter line)
    rw [List.append_nil] at hscan
    rw [scan_filler h, hscan, List.foldl_append]
    rfl
  | @block cs body h hb =>
    have hscan := scan_layout (.openComment hb) (cs.foldl lineAfter line)
    rw [List.append_nil] at hscan
    rw [scan_filler h, hscan, List.foldl_append]
    rfl

def ReadsAs (line : Int) (cs : List Char) (xs : List Lexeme) : Prop :=
  ∃ ts, scan 0 line cs = .ok ts ∧ ts.map bare = xs ++ [(.eof, "")]

theorem readsAs_trailing {tail : List Char} (h : Trailing tail) (line : Int) :
    ReadsAs line tail [] :=
  ⟨_, scan_trailing h line, rfl⟩

theorem readsAs_cons {gap cs rest : List Char} {x : Lexeme} {xs : List Lexeme} (hg : Filler gap)
    (hx : Spells x cs) (hr : Bounded rest) (h : ∀ line, ReadsAs line rest xs) (line : Int) :
    ReadsAs line (gap ++ (cs ++ rest)) (x :: xs) := by
  obtain ⟨ts, hts, hbare⟩ := h (cs.foldl lineAfter (gap.foldl lineAfter line))
  refine ⟨⟨x.1, x.2, gap.foldl lineAfter line⟩ :: ts, ?_, ?_⟩
  · rw [scan_filler hg, scan_spelled hx hr, hts]
    rfl
  · rw [List.map_cons, hbare]
    rfl

theorem Follows.readsAs {xs : List Lexeme} {cs : List Char} (h : Follows xs cs) (line : Int) :
    ReadsAs line cs xs := by
  induction h generalizing line with
  | done ht => exact readsAs_trailing ht line
  | next _ _ hg hx h ih => exact readsAs_cons hg hx h.bounded ih line

theorem Renders.readsAs {xs : List Lexeme} {cs : List Char} (h : Renders xs cs) (line : Int) :
    ReadsAs line cs xs := by
  cases h with
  | nothing ht => exact readsAs_trailing ht line
  | lexemes hl hx h => exact readsAs_cons hl hx h.bounded h.readsAs line

/-- Lexemes with single blanks between them are one way to render them. -/
theorem follows_following {xs : List Lexeme} (h : ∀ x ∈ xs, Genuine x ∧ x.1 ≠ .eof) :
    Follows xs (following xs) := by
  induction xs with
  | nil => exact .done (.filler .nil) (by simp [Bounded, following])
  | cons x xs ih =>
    obtain ⟨⟨hg, he⟩, hxs⟩ := List.forall_mem_cons.mp h
    exact .next (by simp) (by simp [Bounded, isLayout]) (.blank rfl .nil) (spells_spelling hg he)
      (ih hxs)

theorem renders_spaced {xs : List Lexeme} (h : ∀ x ∈ xs, Genuine x ∧ x.1 ≠ .eof) :
    Renders xs (spaced xs).toList := by
  rw [spaced, String.toList_ofList]
  cases xs with
  | nil => exact .nothing (.filler .nil)
  | cons x xs =>
    obtain ⟨⟨hg, he⟩, hxs⟩ := List.forall_mem_cons.mp h
    rw [intercalate_spelling]
    exact .lexemes .nil (spells_spelling hg he) (follows_following hxs)

/-- A text of spelled lexemes has exactly these for its tokens. -/
theorem tokenize_spaced {xs : List Lexeme} (h : ∀ x ∈ xs, Genuine x ∧ x.1 ≠ .eof) :
    ∃ ts, tokenize (spaced xs) = .ok ts ∧ ts.map bare = xs ++ [(.eof, "")] :=
  (renders_spaced h).readsAs 1

theorem Spells.not_eof {x : Lexeme} {cs : List Char} (h : Spells x cs) : x.1 ≠ .eof := by
  cases h with
  | plain _ he => exact he
  | string => simp

theorem Follows.not_eof {xs : List Lexeme} {cs : List Char} (h : Follows xs cs) :
    ∀ x ∈ xs, x.1 ≠ .eof := by
  induction h with
  | done => simp
  | next _ _ _ hx _ ih => exact List.forall_mem_cons.mpr ⟨hx.not_eof, ih⟩

theorem Renders.closed {xs : List Lexeme} {cs : List Char} (h : Renders xs cs) :
    Grammar.Closed (xs ++ [(.eof, "")]) := by
  refine ⟨xs, "", rfl, ?_⟩
  cases h with
  | nothing => simp
  | lexemes _ hx h => exact List.forall_mem_cons.mpr ⟨hx.not_eof, h.not_eof⟩

end Token

namespace Node

open Token

theorem ofSource_eq_ok_iff {source : String} {ts : List Token} (h : tokenize source = .ok ts)
    (p : Node) : ofSource source = .ok p ↔ ofTokens ts = .ok p := by
  simp only [ofSource, h]
  cases ofTokens ts <;> simp

/-- Reading tokens undoes rendering, and two renderings of the same lexemes are the same program or
none. -/
theorem read_of_renders {xs : List Lexeme} {source : String} (h : Renders xs source.toList) :
    (∃ ts, tokenize source = .ok ts ∧ ts.map Token.bare = xs ++ [(.eof, "")]) ∧
      ∀ other : String, Renders xs other.toList →
        ∀ p, ofSource source = .ok p ↔ ofSource other = .ok p := by
  obtain ⟨ts, hts, hbare⟩ := h.readsAs 1
  refine ⟨⟨ts, hts, hbare⟩, fun other hother p => ?_⟩
  obtain ⟨us, hus, hbare'⟩ := hother.readsAs 1
  rw [ofSource_eq_ok_iff hts, ofSource_eq_ok_iff hus]
  exact ofTokens_eq_ok_congr (hbare' ▸ hother.closed) (hbare.trans hbare'.symm) p

/-- The lexemes of a quotient with the string `//*` for its divisor. -/
def quotient : List Lexeme :=
  [(.ident, "x"), (.symbol "/", "/"), (.string, "//*"), (.symbol ";", ";")]

/-- The quotient, once between comments that open strings and comments of their own. -/
theorem quotient_renders :
    Renders quotient "/*'*/x /**/\t/ \"//*\" // /* ;\n; /* '".toList ∧
      Renders quotient "x / '//*' ;".toList := by
  have hx : Spells (.ident, "x") ['x'] := .word ⟨by decide, by simp⟩
  have hslash : Spells (.symbol "/", "/") ['/'] := spells_shortSymbol (by decide)
  have hsemicolon : Spells (.symbol ";", ";") [';'] := spells_shortSymbol (by decide)
  have hstring (q : Char) (hq : isQuote q = true) (hn : q ∉ "//*".toList) :
      Spells (.string, "//*") (q :: ("//*".toList ++ [q])) := .string hq hn
  have hbounded (cs : List Char) : Bounded (' ' :: cs) := by simp [Bounded, isLayout]
  have hblank : Filler [' '] := .blank rfl .nil
  constructor
  · have hlead : Filler "/*'*/".toList := .block (show ¬ _ <:+: ['\''] by decide) .nil
    have hempty : Filler " /**/\t".toList :=
      .blank rfl (.block (show ¬ _ <:+: [] by decide) (.blank rfl .nil))
    have hline : Filler " // /* ;\n".toList :=
      .blank rfl (.line (show _ ∉ [' ', '/', '*', ' ', ';'] by decide) .nil)
    have hopen : Follows [] " /* '".toList :=
      .done (.block hblank (show ¬ _ <:+: [' ', '\''] by decide)) (hbounded _)
    exact .lexemes hlead hx (.next (by simp) (hbounded _) hempty hslash (.next (by simp)
      (hbounded _) hblank (hstring '"' rfl (by decide)) (.next (by simp) (hbounded _) hline
        hsemicolon hopen)))
  · have hnone : Follows [] [] := .done (.filler .nil) (by simp [Bounded])
    exact .lexemes .nil hx (.next (by simp) (hbounded _) hblank hslash (.next (by simp) (hbounded _)
      hblank (hstring '\'' rfl (by decide)) (.next (by simp) (hbounded _) hblank hsemicolon hnone)))

theorem quotient_read :
    (∃ ts, tokenize "/*'*/x /**/\t/ \"//*\" // /* ;\n; /* '" = .ok ts ∧
        ts.map Token.bare = quotient ++ [(.eof, "")]) ∧
      ∀ p, ofSource "/*'*/x /**/\t/ \"//*\" // /* ;\n; /* '" = .ok p ↔
        ofSource "x / '//*' ;" = .ok p := by
  obtain ⟨htokens, hsame⟩ := read_of_renders quotient_renders.1
  exact ⟨htokens, hsame _ quotient_renders.2⟩

end Node
end Script
