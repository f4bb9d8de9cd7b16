import Script.Proofs.Shape
import Mathlib.Data.List.TakeWhile

/-!
# Lexemes and their spelling

The tokens of a text are genuine lexemes with an end token behind them. The other way round, a
genuine lexeme is read back from its spelling, whatever stands behind it, as long as that is
layout.
-/
namespace Script.Token

theorem isNumeral_iff (cs : List Char) : isNumeral cs = true ↔ IsNumeral cs := by
  constructor
  · intro h
    have hcs : cs.takeWhile Char.isDigit ++ cs.dropWhile Char.isDigit = cs :=
      List.takeWhile_append_dropWhile
    have hd : ∀ x ∈ cs.takeWhile Char.isDigit, x.isDigit = true := fun x hx =>
      List.mem_takeWhile_imp hx
    simp only [isNumeral] at h
    rw [← hcs]
    split at h
    · rename_i hr
      rw [hr, List.append_nil]
      exact .whole (by simpa using h) hd
    · rename_i es hr
      rw [hr]
      simp only [Bool.and_eq_true, Bool.not_eq_true', List.isEmpty_eq_false_iff,
        List.all_eq_true] at h
      exact .fraction h.1.1 hd h.1.2 h.2
    · cases h
  · intro h
    cases h with
    | whole hn hd =>
      have h₁ : cs.takeWhile Char.isDigit = cs := List.takeWhile_eq_self_iff.mpr hd
      have h₂ : cs.dropWhile Char.isDigit = [] := List.dropWhile_eq_nil_iff.mpr hd
      simp [isNumeral, h₁, h₂, hn]
    | @fraction ds es hn hd hm he =>
      have h₁ : (ds ++ '.' :: es).takeWhile Char.isDigit = ds := by
        rw [List.takeWhile_append_of_pos hd]
        simp [show Char.isDigit '.' = false from rfl]
      have h₂ : (ds ++ '.' :: es).dropWhile Char.isDigit = '.' :: es := by
        rw [List.dropWhile_append_of_pos hd]
        simp [show Char.isDigit '.' = false from rfl]
      simp only [isNumeral, h₁, h₂]
      simp [hn, hm]
      exact he

theorem segment_genuine {c : Char} {cs : List Char} {n : Nat} {x : Lexeme}
    (h : segment c cs = .ok ⟨n, some x⟩) : Genuine x := by
  simp only [segment, layout] at h
  split at h
  · simp at h
  split at h
  · simp at h
  split at h
  · simp at h
  split at h
  · simp only [numberSegment] at h
    split at h
    · rename_i hn
      obtain ⟨-, rfl⟩ : _ ∧ _ = x := by simpa [lexeme] using h
      simpa [Genuine] using (isNumeral_iff _).mp hn
    · simp at h
  split at h
  · rename_i hq
    simp only [stringSegment] at h
    split at h
    · obtain ⟨-, rfl⟩ : _ ∧ _ = x := by simpa using h
      refine ⟨c, hq, ?_⟩
      intro hm
      rw [String.toList_ofList] at hm
      simpa using List.mem_takeWhile_imp hm
    · simp at h
  split at h
  · rename_i hw
    obtain ⟨-, rfl⟩ : _ ∧ _ = x := by simpa only [lexeme, Except.ok.injEq, Segment.mk.injEq,
      Option.some.injEq] using h
    simp only [Genuine, String.toList_ofList]
    exact ⟨hw, fun y hy => List.mem_takeWhile_imp hy⟩
  · simp only [symbolSegment] at h
    split at h
    · rename_i hl
      obtain ⟨-, rfl⟩ : _ ∧ _ = x := by simpa only [lexeme, Except.ok.injEq, Segment.mk.injEq,
        Option.some.injEq] using h
      exact ⟨rfl, List.mem_append_left _ (List.mem_map_of_mem (by simpa using hl))⟩
    · split at h
      · rename_i hc
        obtain ⟨-, rfl⟩ : _ ∧ _ = x := by simpa [lexeme] using h
        exact ⟨by simp, List.mem_append_right _ (List.mem_map_of_mem (by simpa using hc))⟩
      · simp at h

theorem scan_genuine {cs : List Char} {skip : Nat} {line : Int} {ts : List Token}
    (h : scan skip line cs = .ok ts) : (∀ t ∈ ts, Genuine t.bare) ∧ ∃ t ∈ ts, t.kind = .eof := by
  induction cs generalizing skip line ts with
  | nil =>
    obtain rfl : [⟨.eof, "", line⟩] = ts := by simpa [scan] using h
    simp [bare, Genuine]
  | cons c cs ih =>
    cases skip with
    | succ skip => exact ih (by simpa only [scan] using h)
    | zero =>
      simp only [scan] at h
      split at h
      · cases h
      · exact ih h
      · rename_i kind value hs
        cases hr : scan (_ - 1) (lineAfter line c) cs with
        | error e =>
          rw [hr] at h
          cases h
        | ok us =>
          rw [hr] at h
          obtain rfl : ⟨kind, value, line⟩ :: us = ts := by simpa [Except.map] using h
          obtain ⟨hg, he⟩ := ih hr
          exact ⟨List.forall_mem_cons.mpr ⟨segment_genuine hs, hg⟩,
            he.imp fun t ht => ⟨List.mem_cons_of_mem _ ht.1, ht.2⟩⟩

/-- The characters that spell a lexeme: its text, which for a string stands between two quotes of a
kind that it leaves out. -/
inductive Spells : Lexeme → List Char → Prop
  | plain {k s} (hk : k ≠ .string) (he : k ≠ .eof) (hg : Genuine (k, s)) : Spells (k, s) s.toList
  | string {s q} (hq : isQuote q = true) (hs : q ∉ s.toList) :
      Spells (.string, s) (q :: (s.toList ++ [q]))

def Bounded (cs : List Char) : Prop := ∀ c ∈ cs.head?, isLayout c = true

/-- A run of characters ends before the first one that does not belong to it. -/
theorem takeWhile_append_of_stop {p : Char → Bool} {ds cs : List Char} (hd : ∀ x ∈ ds, p x = true)
    (hc : ∀ c ∈ cs.head?, p c = false) : (ds ++ cs).takeWhile p = ds := by
  rw [List.takeWhile_append_of_pos hd]
  cases cs with
  | nil => simp
  | cons c cs => simp [hc c rfl]

theorem layout_cases {c : Char} (h : isLayout c = true) :
    c = ' ' ∨ c = '\t' ∨ c = '\r' ∨ c = '\n' := by
  simpa [isLayout, or_assoc] using h

theorem quote_cases {c : Char} (h : isQuote c = true) : c = '"' ∨ c = '\'' ∨ c = '\x60' := by
  simpa [isQuote, or_assoc] using h

theorem isDigit_iff (c : Char) : c.isDigit = true ↔ 48 ≤ c.toNat ∧ c.toNat ≤ 57 := by
  simp [Char.isDigit, UInt32.le_iff_toNat_le]

theorem wordStart_cases {c : Char} (h : isWordStart c = true) :
    65 ≤ c.toNat ∧ c.toNat ≤ 122 ∧ c ≠ '\x60' := by
  delta isWordStart Char.isAlpha Char.isUpper Char.isLower at h
  simp only [UInt32.le_iff_toNat_le, ge_iff_le, Bool.or_eq_true, Bool.and_eq_true,
    decide_eq_true_eq] at h
  rcases h with (⟨h₁, h₂⟩ | ⟨h₁, h₂⟩) | rfl
  · exact ⟨h₁, h₂.trans (by decide), by rintro rfl; exact absurd h₂ (by decide)⟩
  · exact ⟨Nat.le_trans (by decide) h₁, h₂, by rintro rfl; exact absurd h₁ (by decide)⟩
  · decide

/-- Which rule reads a lexeme is decided by its first character. -/
theorem digit_alone {c : Char} (h : c.isDigit = true) : isLayout c = false ∧ c ≠ '/' := by
  refine ⟨?_, by rintro rfl; cases h⟩
  by_contra hl
  rcases layout_cases (by simpa using hl) with rfl | rfl | rfl | rfl <;> cases h

theorem quote_alone {c : Char} (h : isQuote c = true) :
    isLayout c = false ∧ c ≠ '/' ∧ c.isDigit = false := by
  rcases quote_cases h with rfl | rfl | rfl <;> decide

theorem wordStart_alone {c : Char} (h : isWordStart c = true) :
    isLayout c = false ∧ c ≠ '/' ∧ c.isDigit = false ∧ isQuote c = false := by
  obtain ⟨h₁, h₂, h₃⟩ := wordStart_cases h
  refine ⟨?_, ?_, ?_, ?_⟩
  · by_contra hl
    rcases layout_cases (by simpa using hl) with rfl | rfl | rfl | rfl <;>
      exact absurd h₁ (by decide)
  · rintro rfl
    exact absurd h₁ (by decide)
  · by_contra hd
    have := (isDigit_iff c).mp (by simpa using hd)
    omega
  · by_contra hq
    rcases quote_cases (by simpa only [Bool.not_eq_false] using hq) with rfl | rfl | rfl
    · exact absurd h₁ (by decide)
    · exact absurd h₁ (by decide)
    · exact h₃ rfl

theorem layout_not_numeral {c : Char} (h : isLayout c = true) :
    (c.isDigit || decide (c = '.')) = false := by
  rcases layout_cases h with rfl | rfl | rfl | rfl <;> decide

theorem layout_not_wordPart {c : Char} (h : isLayout c = true) : isWordPart c = false := by
  rcases layout_cases h with rfl | rfl | rfl | rfl <;> decide

theorem IsNumeral.begins {cs : List Char} (h : IsNumeral cs) :
    ∃ d ds, cs = d :: ds ∧ d.isDigit = true := by
  cases h with
  | @whole ds hn hd =>
    obtain ⟨d, ds, rfl⟩ := List.exists_cons_of_ne_nil hn
    exact ⟨d, ds, rfl, hd d List.mem_cons_self⟩
  | @fraction ds es hn hd =>
    obtain ⟨d, ds, rfl⟩ := List.exists_cons_of_ne_nil hn
    exact ⟨d, ds ++ '.' :: es, rfl, hd d List.mem_cons_self⟩

theorem IsNumeral.chars {cs : List Char} (h : IsNumeral cs) :
    ∀ x ∈ cs, (x.isDigit || decide (x = '.')) = true := by
  cases h with
  | whole hn hd =>
    intro x hx
    simp [hd x hx]
  | fraction hn hd hm he =>
    intro x hx
    rcases List.mem_append.mp hx with hx | hx
    · simp [hd x hx]
    · rcases List.mem_cons.mp hx with rfl | hx
      · simp
      · simp [he x hx]

theorem segment_number {s : String} (h : IsNumeral s.toList) {rest : List Char}
    (hr : ∀ c ∈ rest.head?, (c.isDigit || decide (c = '.')) = false) :
    ∃ d ds, s.toList = d :: ds ∧
      segment d (ds ++ rest) = .ok ⟨s.toList.length, some (.number, s)⟩ := by
  obtain ⟨d, ds, hs, hd⟩ := h.begins
  refine ⟨d, ds, hs, ?_⟩
  have hrun :
      (d :: (ds ++ rest)).takeWhile (fun c => c.isDigit || decide (c = '.')) = s.toList := by
    rw [← List.cons_append, ← hs]
    exact takeWhile_append_of_stop h.chars hr
  obtain ⟨h₁, h₂⟩ := digit_alone hd
  simp only [segment, h₁, Bool.false_eq_true, if_false, h₂, decide_false, Bool.false_and, hd,
    if_true, numberSegment, hrun, (isNumeral_iff _).mpr h]
  simp [lexeme]

theorem segment_string {s : String} {q : Char} (hq : isQuote q = true) (hs : q ∉ s.toList)
    (rest : List Char) :
    segment q (s.toList ++ q :: rest) = .ok ⟨s.toList.length + 2, some (.string, s)⟩ := by
  obtain ⟨h₁, h₂, h₃⟩ := quote_alone hq
  have hrun : (s.toList ++ q :: rest).takeWhile (fun c => decide (c ≠ q)) = s.toList := by
    rw [List.takeWhile_append_of_pos]
    · simp
    · intro x hx
      simpa using fun h : x = q => hs (h ▸ hx)
  simp only [segment, h₁, Bool.false_eq_true, if_false, h₂, decide_false, Bool.false_and, h₃,
    hq, if_true, stringSegment, hrun]
  simp

theorem segment_word {s : String} (h : IsWord s.toList) {rest : List Char}
    (hr : ∀ c ∈ rest.head?, isWordPart c = false) :
    ∃ d ds, s.toList = d :: ds ∧
      segment d (ds ++ rest) = .ok ⟨s.toList.length, some (.ident, s)⟩ := by
  obtain ⟨d, ds, hs, hd, hds⟩ : ∃ d ds, s.toList = d :: ds ∧ isWordStart d = true ∧
      ∀ x ∈ ds, isWordPart x = true := by
    generalize s.toList = cs at h
    cases cs with
    | nil => exact h.elim
    | cons d ds => exact ⟨d, ds, rfl, h⟩
  refine ⟨d, ds, hs, ?_⟩
  obtain ⟨h₁, h₂, h₃, h₄⟩ := wordStart_alone hd
  have hrun := takeWhile_append_of_stop hds hr
  simp only [segment, h₁, Bool.false_eq_true, if_false, h₂, decide_false, Bool.false_and, h₃, h₄,
    hd, if_true, hrun, lexeme, ← hs, String.ofList_toList]

/-- Only the rule for symbols reads a text that begins with the character. -/
def isSymbolStart (c : Char) : Bool :=
  !isLayout c && !c.isDigit && !isQuote c && !isWordStart c

theorem longOperators_form : ∀ op ∈ longOperators, op.length = 2 ∧
    op.head?.all isSymbolStart = true ∧ op.getLast?.all isLayout = false ∧
    op ≠ ['/', '/'] ∧ op ≠ ['/', '*'] := by
  decide

theorem shortSymbols_form : ∀ c ∈ shortSymbols, isSymbolStart c = true :=
  List.all_eq_true.mp (by decide)

/-- Two characters that open a comment stand at the start. -/
def OpensComment (cs : List Char) : Prop := ['/', '/'] <+: cs ∨ ['/', '*'] <+: cs

theorem opensComment_cons {c : Char} {cs : List Char} :
    OpensComment (c :: cs) ↔ c = '/' ∧ (cs.head? = some '/' ∨ cs.head? = some '*') := by
  cases cs <;> simp [OpensComment, List.cons_prefix_cons, eq_comm, and_or_left]

/-- What begins like a symbol, and not like a comment, is read by the rule for symbols. -/
theorem segment_eq_symbolSegment {c : Char} {cs : List Char} (hc : isSymbolStart c = true)
    (ho : ¬ OpensComment (c :: cs)) : segment c cs = symbolSegment c cs := by
  simp only [isSymbolStart, Bool.and_eq_true, Bool.not_eq_true'] at hc
  obtain ⟨⟨⟨hl, hd⟩, hq⟩, hw⟩ := hc
  rw [opensComment_cons] at ho
  have h₁ : (decide (c = '/') && decide (cs.head? = some '/')) = false := by
    simpa using fun hc hs => ho ⟨hc, .inl hs⟩
  have h₂ : (decide (c = '/') && decide (cs.head? = some '*')) = false := by
    simpa using fun hc hs => ho ⟨hc, .inr hs⟩
  simp only [segment, hl, h₁, h₂, hd, hq, hw, Bool.false_eq_true, if_false]

/-- A symbol is read if the next character does not make it longer and it opens no comment. -/
theorem segment_symbol {s : String} (h : s ∈ symbols) {rest : List Char}
    (hl : ∀ d ∈ rest.head?, s.toList ++ [d] ∉ longOperators)
    (ho : ¬ OpensComment (s.toList ++ rest)) :
    ∃ d ds, s.toList = d :: ds ∧
      segment d (ds ++ rest) = .ok ⟨s.toList.length, some (.symbol s, s)⟩ := by
  rcases List.mem_append.mp h with h | h
  · obtain ⟨op, hop, rfl⟩ := List.mem_map.mp h
    obtain ⟨hlen, hhead, -, -, -⟩ := longOperators_form op hop
    match op, hlen with
    | [c, d], _ =>
      refine ⟨c, [d], by simp, ?_⟩
      rw [segment_eq_symbolSegment hhead (by simpa using ho)]
      have hm : longOperators.contains [c, d] = true := by simpa using hop
      simp only [symbolSegment, List.cons_append, List.nil_append, List.take_succ_cons,
        List.take_zero, hm, if_true, lexeme, String.toList_ofList]
  · obtain ⟨c, hc, rfl⟩ := List.mem_map.mp h
    refine ⟨c, [], by simp, ?_⟩
    rw [List.nil_append, segment_eq_symbolSegment (shortSymbols_form c hc) (by simpa using ho)]
    have hlong : longOperators.contains (c :: rest.take 1) = false := by
      by_contra hcon
      have hop : c :: rest.take 1 ∈ longOperators := by simpa using hcon
      cases rest with
      | nil => exact absurd (longOperators_form _ hop).1 (by simp)
      | cons d rest => exact hl d rfl (by simpa using hop)
    have hm : shortSymbols.contains c = true := by simpa using hc
    simp only [symbolSegment, hlong, hm, Bool.false_eq_true, if_false, if_true, lexeme]
    simp

/-- A layout character belongs to no symbol. -/
theorem append_not_mem_longOperators {cs : List Char} {d : Char} (hd : isLayout d = true) :
    cs ++ [d] ∉ longOperators := by
  intro hop
  obtain ⟨-, -, hlast, -, -⟩ := longOperators_form _ hop
  simp [hd] at hlast

/-- A symbol with layout behind it opens no comment. -/
theorem symbol_not_opensComment {s : String} (h : s ∈ symbols) {rest : List Char}
    (hr : Bounded rest) : ¬ OpensComment (s.toList ++ rest) := by
  rcases List.mem_append.mp h with h | h
  · obtain ⟨op, hop, rfl⟩ := List.mem_map.mp h
    obtain ⟨hlen, -, -, hne₁, hne₂⟩ := longOperators_form op hop
    match op, hlen with
    | [c, d], _ =>
      rw [String.toList_ofList, List.cons_append, opensComment_cons]
      rintro ⟨rfl, hd | hd⟩
      · exact hne₁ (by simpa using hd)
      · exact hne₂ (by simpa using hd)
  · obtain ⟨c, hc, rfl⟩ := List.mem_map.mp h
    rw [String.toList_singleton, List.singleton_append, opensComment_cons]
    rintro ⟨-, hd | hd⟩
    · exact absurd (hr _ hd) (by decide)
    · exact absurd (hr _ hd) (by decide)

/-- A spelled lexeme is the segment at the start of a text, if layout or nothing follows. -/
theorem segment_spelled {x : Lexeme} {cs : List Char} (h : Spells x cs) {rest : List Char}
    (hr : Bounded rest) :
    ∃ d ds, cs = d :: ds ∧ segment d (ds ++ rest) = .ok ⟨cs.length, some x⟩ := by
  cases h with
  | @plain k s hk he hg =>
    cases k with
    | number => exact segment_number hg fun c hc => layout_not_numeral (hr c hc)
    | string => exact absurd rfl hk
    | ident => exact segment_word hg fun c hc => layout_not_wordPart (hr c hc)
    | eof => exact absurd rfl he
    | symbol t =>
      obtain ⟨rfl, ht⟩ := hg
      exact segment_symbol ht (fun d hd => append_not_mem_longOperators (hr d hd))
        (symbol_not_opensComment ht hr)
  | @string s q hq hs =>
    refine ⟨q, s.toList ++ [q], rfl, ?_⟩
    rw [List.append_assoc, List.singleton_append, segment_string hq hs]
    simp

theorem scan_skip (cs rest : List Char) (line : Int) :
    scan cs.length line (cs ++ rest) = scan 0 (cs.foldl lineAfter line) rest := by
  induction cs generalizing line with
  | nil => rfl
  | cons c cs ih => exact ih (lineAfter line c)

theorem scan_spelled {x : Lexeme} {cs : List Char} (h : Spells x cs) {rest : List Char}
    (hr : Bounded rest) (line : Int) :
    scan 0 line (cs ++ rest) =
      (scan 0 (cs.foldl lineAfter line) rest).map (⟨x.1, x.2, line⟩ :: ·) := by
  obtain ⟨d, ds, rfl, hseg⟩ := segment_spelled h hr
  simp only [List.cons_append, scan, hseg, List.length_cons, Nat.add_sub_cancel, scan_skip,
    List.foldl_cons]

def quoteFor (cs : List Char) : Char :=
  if '"' ∈ cs then if '\'' ∈ cs then '\x60' else '\'' else '"'

theorem quoteFor_fits {cs : List Char} (h : IsQuotable cs) :
    isQuote (quoteFor cs) = true ∧ quoteFor cs ∉ cs := by
  obtain ⟨q, hq, hn⟩ := h
  rw [quoteFor]
  split_ifs with h₁ h₂
  · rcases quote_cases hq with rfl | rfl | rfl
    · exact absurd h₁ hn
    · exact absurd h₂ hn
    · exact ⟨rfl, hn⟩
  · exact ⟨rfl, h₂⟩
  · exact ⟨rfl, h₁⟩

def spelling : Lexeme → List Char
  | (.string, s) => quoteFor s.toList :: (s.toList ++ [quoteFor s.toList])
  | (_, s) => s.toList

theorem spells_spelling {x : Lexeme} (hg : Genuine x) (he : x.1 ≠ .eof) :
    Spells x (spelling x) := by
  obtain ⟨k, s⟩ := x
  cases k with
  | string =>
    obtain ⟨hq, hn⟩ := quoteFor_fits hg
    exact .string hq hn
  | eof => exact absurd rfl he
  | number => exact .plain (by simp) he hg
  | ident => exact .plain (by simp) he hg
  | symbol t => exact .plain (by simp) he hg

def following : List Lexeme → List Char
  | [] => []
  | x :: xs => ' ' :: (spelling x ++ following xs)

/-- The text that spells lexemes, with single blanks between them. -/
def spaced (xs : List Lexeme) : String := String.ofList ([' '].intercalate (xs.map spelling))

theorem intercalate_spelling (x : Lexeme) (xs : List Lexeme) :
    [' '].intercalate ((x :: xs).map spelling) = spelling x ++ following xs := by
  induction xs generalizing x with
  | nil => simp [following]
  | cons y ys ih => simp [following, ← ih, List.intercalate]

end Script.Token
