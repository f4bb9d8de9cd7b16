import Script.Proofs.Spelling

/-!
# Segmentation

A text is cut into pieces: blanks, comments, and the spellings of lexemes, each as long as the rules
for tokens allow. The tokens of the text are the lexemes of its pieces, and a text without tokens
has a place where no piece begins.
-/
namespace Script.Token

/-- What a rule for tokens allows: digits and points behind a digit, whether they make a numeral or
not, or the spelling of a lexeme. -/
inductive Candidate : List Char → Prop
  | run {d ds} (hd : d.isDigit = true) (hds : ∀ x ∈ ds, (x.isDigit || decide (x = '.')) = true) :
      Candidate (d :: ds)
  | spelling {x cs} (h : Spells x cs) : Candidate cs

/-- No candidate at the start of `cs` is longer than `text`. -/
def Longest (text cs : List Char) : Prop :=
  ∀ other, Candidate other → other <+: cs → other.length ≤ text.length

/-- `text` is a piece if `rest` stands behind it: layout, or the spelling of a lexeme. A comment
reaches to the end of its line, or to the first `*` with a `/` behind it. -/
inductive Fits : Option Lexeme → List Char → List Char → Prop
  | blanks {text rest} (hn : text ≠ []) (ht : ∀ c ∈ text, isLayout c = true)
      (hr : ∀ c ∈ rest.head?, isLayout c = false) : Fits none text rest
  | lineComment {text rest} (ht : '\n' ∉ text) (hr : ∀ c ∈ rest.head?, c = '\n') :
      Fits none ('/' :: '/' :: text) rest
  | blockComment {text} (rest) (ht : ¬ ['*', '/'] <:+: text) :
      Fits none ('/' :: '*' :: (text ++ ['*', '/'])) rest
  | openComment {text} (ht : ¬ ['*', '/'] <:+: text) : Fits none ('/' :: '*' :: text) []
  | token {x text rest} (hx : Spells x text) (hl : Longest text (text ++ rest))
      (ho : ¬ OpensComment (text ++ rest)) : Fits (some x) text rest

/-- No piece begins where `cs` stands, with what is said about it. -/
inductive Stuck : List Char → String → Prop
  | openString {q cs} (hq : isQuote q = true) (hs : q ∉ cs) : Stuck (q :: cs) "Unterminated string"
  | badNumber {d ds rest} (hd : d.isDigit = true)
      (hds : ∀ x ∈ ds, (x.isDigit || decide (x = '.')) = true)
      (hr : ∀ c ∈ rest.head?, (c.isDigit || decide (c = '.')) = false)
      (hn : ¬ IsNumeral (d :: ds)) :
      Stuck (d :: (ds ++ rest)) ("Invalid number literal " ++ String.ofList (d :: ds))
  | badCharacter {c cs} (hl : isLayout c = false) (hq : isQuote c = false)
      (ho : ¬ OpensComment (c :: cs)) (hn : ∀ other, Candidate other → ¬ other <+: c :: cs) :
      Stuck (c :: cs) ("Invalid character " ++ Text.quoted (String.singleton c))

theorem Candidate.inv {cs : List Char} (h : Candidate cs) :
    ∃ c ds, cs = c :: ds ∧
      ((c.isDigit = true ∧ ∀ x ∈ ds, (x.isDigit || decide (x = '.')) = true) ∨
        (isQuote c = true ∧ ∃ es, ds = es ++ [c] ∧ c ∉ es) ∨
        (isWordStart c = true ∧ ∀ x ∈ ds, isWordPart x = true) ∨
        (isSymbolStart c = true ∧ (c :: ds ∈ longOperators ∨ ds = [] ∧ c ∈ shortSymbols))) := by
  cases h with
  | run hd hds => exact ⟨_, _, rfl, .inl ⟨hd, hds⟩⟩
  | spelling h =>
    cases h with
    | string hq hs => exact ⟨_, _, rfl, .inr (.inl ⟨hq, _, rfl, hs⟩)⟩
    | @plain k s hk he hg =>
      cases k with
      | string => exact absurd rfl hk
      | eof => exact absurd rfl he
      | number =>
        obtain ⟨d, ds, hs, hd⟩ := IsNumeral.begins hg
        refine ⟨d, ds, hs, .inl ⟨hd, fun x hx => IsNumeral.chars hg x ?_⟩⟩
        rw [hs]
        exact List.mem_cons_of_mem d hx
      | ident =>
        obtain ⟨d, ds, hs⟩ : ∃ d ds, s.toList = d :: ds := by
          rw [← List.ne_nil_iff_exists_cons]
          intro hs
          simp [Genuine, hs, IsWord] at hg
        simp only [Genuine, hs, IsWord] at hg
        exact ⟨d, ds, hs, .inr (.inr (.inl hg))⟩
      | symbol t =>
        obtain ⟨rfl, ht⟩ := hg
        rcases List.mem_append.mp ht with ht | ht
        · obtain ⟨op, hop, rfl⟩ := List.mem_map.mp ht
          obtain ⟨hlen, hhead, -⟩ := longOperators_form op hop
          obtain ⟨c, d, rfl⟩ := List.length_eq_two.mp hlen
          exact ⟨c, [d], by simp, .inr (.inr (.inr ⟨hhead, .inl hop⟩))⟩
        · obtain ⟨c, hc, rfl⟩ := List.mem_map.mp ht
          exact ⟨c, [], by simp, .inr (.inr (.inr ⟨shortSymbols_form c hc, .inr ⟨rfl, hc⟩⟩))⟩

/-- The first character of a candidate decides how it goes on. -/
theorem Candidate.first {cs : List Char} (h : Candidate cs) :
    ∃ c ds, cs = c :: ds ∧
      (c.isDigit = true → ∀ x ∈ ds, (x.isDigit || decide (x = '.')) = true) ∧
      (isQuote c = true → ∃ es, ds = es ++ [c] ∧ c ∉ es) ∧
      (isWordStart c = true → ∀ x ∈ ds, isWordPart x = true) ∧
      (isSymbolStart c = true → c :: ds ∈ longOperators ∨ ds = [] ∧ c ∈ shortSymbols) := by
  obtain ⟨c, ds, rfl, h⟩ := h.inv
  refine ⟨c, ds, rfl, ?_⟩
  grind [quote_alone, wordStart_alone, isSymbolStart]

/-- A symbol at the start of a text has one character, or two that are the first two of the text. -/
theorem Candidate.of_symbol_prefix {c : Char} {cs other : List Char} (h : Candidate other)
    (hc : isSymbolStart c = true) (hp : other <+: c :: cs) :
    (other = c :: cs.take 1 ∧ other ∈ longOperators) ∨ (other = [c] ∧ c ∈ shortSymbols) := by
  obtain ⟨d, es, rfl, -, -, -, hsymbol⟩ := h.first
  obtain ⟨rfl, hes⟩ := List.cons_prefix_cons.mp hp
  rcases hsymbol hc with hop | ⟨rfl, hs⟩
  · have hlen : es.length = 1 := by simpa using (longOperators_form _ hop).1
    exact .inl ⟨by rw [List.prefix_iff_eq_take.mp hes, hlen], hop⟩
  · exact .inr ⟨rfl, hs⟩

theorem Spells.ofList {k : Kind} {cs : List Char} (hk : k ≠ .string) (he : k ≠ .eof)
    (hg : Genuine (k, String.ofList cs)) : Spells (k, String.ofList cs) cs := by
  simpa using Spells.plain hk he hg

theorem Spells.word {cs : List Char} (h : IsWord cs) : Spells (.ident, String.ofList cs) cs :=
  .ofList (by simp) (by simp) (by rwa [Genuine, String.toList_ofList])

theorem spells_longOperator {op : List Char} (h : op ∈ longOperators) :
    Spells (.symbol (String.ofList op), String.ofList op) op :=
  .ofList (by simp) (by simp) ⟨rfl, List.mem_append_left _ (List.mem_map_of_mem h)⟩

theorem spells_shortSymbol {c : Char} (h : c ∈ shortSymbols) :
    Spells (.symbol (String.ofList [c]), String.ofList [c]) [c] :=
  .ofList (by simp) (by simp) ⟨rfl, List.mem_append_right _ (List.mem_map.mpr ⟨c, h, by simp⟩)⟩

/-- A text begins with a run of characters, and what follows the run does not belong to it. -/
theorem exists_run (p : Char → Bool) (cs : List Char) :
    ∃ ds rest, cs = ds ++ rest ∧ (∀ x ∈ ds, p x = true) ∧ ∀ c ∈ rest.head?, p c = false := by
  refine ⟨cs.takeWhile p, cs.dropWhile p, List.takeWhile_append_dropWhile.symm,
    fun _ => List.mem_takeWhile_imp, fun c hc => ?_⟩
  have h := List.head?_dropWhile_not p cs
  rwa [Option.mem_def.mp hc] at h

/-- A run that stops is the longest one. -/
theorem length_le_of_prefix {p : Char → Bool} {es ds rest : List Char}
    (hes : ∀ x ∈ es, p x = true) (hr : ∀ c ∈ rest.head?, p c = false)
    (h : es <+: ds ++ rest) : es.length ≤ ds.length := by
  by_contra hlt
  obtain ⟨more, rfl⟩ := List.prefix_of_prefix_length_le (List.prefix_append ds rest) h (by omega)
  rw [List.prefix_append_right_inj] at h
  cases more with
  | nil => simp at hlt
  | cons c more =>
    obtain ⟨behind, rfl⟩ := h
    have hno := hr c rfl
    rw [hes c (by simp)] at hno
    cases hno

theorem closes_or_not (cs : List Char) :
    (∃ body rest, cs = body ++ '*' :: '/' :: rest ∧ ¬ ['*', '/'] <:+: body) ∨
      ¬ ['*', '/'] <:+: cs := by
  induction cs with
  | nil => exact .inr (by simp)
  | cons c cs ih =>
    by_cases hp : ['*', '/'] <+: c :: cs
    · obtain ⟨rest, hrest⟩ := hp
      exact .inl ⟨[], rest, hrest.symm, by simp⟩
    rcases ih with ⟨body, rest, rfl, hb⟩ | hno
    · refine .inl ⟨c :: body, rest, rfl, ?_⟩
      rw [List.infix_cons_iff]
      rintro (hin | hin)
      · exact hp (hin.trans (List.prefix_append (c :: body) _))
      · exact hb hin
    · refine .inr ?_
      rw [List.infix_cons_iff]
      exact not_or.mpr ⟨hp, hno⟩

/-- At each place of a text a piece begins, or there is a reason why none does. -/
def Determined (cs : List Char) : Prop :=
  (∃ x text rest, cs = text ++ rest ∧ Fits x text rest) ∨ ∃ message, Stuck cs message

theorem determined_layout {c : Char} {cs : List Char} (hc : isLayout c = true) :
    Determined (c :: cs) := by
  obtain ⟨ds, rest, rfl, hds, hr⟩ := exists_run isLayout cs
  exact .inl ⟨none, c :: ds, rest, rfl,
    .blanks (by simp) (List.forall_mem_cons.mpr ⟨hc, hds⟩) hr⟩

theorem determined_comment {cs : List Char} (h : OpensComment cs) : Determined cs := by
  rcases h with ⟨cs, rfl⟩ | ⟨cs, rfl⟩
  · obtain ⟨body, rest, rfl, hbody, hr⟩ := exists_run (· ≠ '\n') cs
    refine .inl ⟨none, '/' :: '/' :: body, rest, rfl, .lineComment (fun hn => ?_) fun c hc => ?_⟩
    · simpa using hbody _ hn
    · simpa using hr c hc
  · rcases closes_or_not cs with ⟨body, rest, rfl, hb⟩ | hno
    · exact .inl ⟨none, '/' :: '*' :: (body ++ ['*', '/']), rest, by simp, .blockComment rest hb⟩
    · exact .inl ⟨none, '/' :: '*' :: cs, [], by simp, .openComment hno⟩

section Beginning

variable {c : Char} {cs : List Char} (ho : ¬ OpensComment (c :: cs))

include ho

theorem determined_digit (hc : c.isDigit = true) : Determined (c :: cs) := by
  obtain ⟨ds, rest, rfl, hds, hr⟩ := exists_run (fun x => x.isDigit || decide (x = '.')) cs
  by_cases hn : IsNumeral (c :: ds)
  · refine .inl ⟨some (.number, String.ofList (c :: ds)), c :: ds, rest, rfl, .token ?_ ?_ ho⟩
    · exact .ofList (by simp) (by simp) (by simpa [Genuine] using hn)
    · intro other hother hpre
      obtain ⟨d, es, rfl, hdigits, -⟩ := hother.first
      obtain ⟨rfl, hes⟩ := List.cons_prefix_cons.mp hpre
      simpa using length_le_of_prefix (hdigits hc) hr hes
  · exact .inr ⟨_, .badNumber hc hds hr hn⟩

theorem determined_quote (hc : isQuote c = true) : Determined (c :: cs) := by
  by_cases hm : c ∈ cs
  · obtain ⟨content, rest, rfl, hn⟩ := List.eq_append_cons_of_mem hm
    refine .inl ⟨some (.string, String.ofList content), c :: (content ++ [c]), rest, by simp,
      .token ?_ ?_ (by simpa using ho)⟩
    · have hs : Spells (.string, String.ofList content)
          (c :: ((String.ofList content).toList ++ [c])) :=
        .string hc (by simpa using hn)
      simpa using hs
    · intro other hother hpre
      obtain ⟨d, es, rfl, -, hquote, -⟩ := hother.first
      rw [List.cons_append, List.cons_prefix_cons] at hpre
      obtain ⟨rfl, hes⟩ := hpre
      obtain ⟨es, rfl, hno⟩ := hquote hc
      -- what is between the quotes has no quote in it, and so ends where the content does
      have hin : es <+: content ++ d :: rest :=
        (List.prefix_append es [d]).trans (by simpa using hes)
      have hle : es.length ≤ content.length := by
        refine length_le_of_prefix (p := fun x => x ≠ d) (fun x hx => ?_) (by simp) hin
        simpa using fun hxd : x = d => hno (hxd ▸ hx)
      simpa using hle
  · exact .inr ⟨_, .openString hc hm⟩

theorem determined_wordStart (hc : isWordStart c = true) : Determined (c :: cs) := by
  obtain ⟨ds, rest, rfl, hds, hr⟩ := exists_run isWordPart cs
  refine .inl ⟨some (.ident, String.ofList (c :: ds)), c :: ds, rest, rfl, .token ?_ ?_ ho⟩
  · exact .word ⟨hc, hds⟩
  · intro other hother hpre
    obtain ⟨d, es, rfl, -, -, hword, -⟩ := hother.first
    obtain ⟨rfl, hes⟩ := List.cons_prefix_cons.mp hpre
    simpa using length_le_of_prefix (hword hc) hr hes

theorem determined_symbolStart (hc : isSymbolStart c = true) : Determined (c :: cs) := by
  by_cases hlong : c :: cs.take 1 ∈ longOperators
  · have hcs : c :: cs.take 1 ++ cs.drop 1 = c :: cs := by
      rw [List.cons_append, List.take_append_drop]
    refine .inl ⟨_, _, cs.drop 1, hcs.symm, .token (spells_longOperator hlong) ?_ (hcs ▸ ho)⟩
    intro other hother hpre
    rw [hcs] at hpre
    rcases hother.of_symbol_prefix hc hpre with ⟨rfl, -⟩ | ⟨rfl, -⟩ <;> simp
  by_cases hshort : c ∈ shortSymbols
  · refine .inl ⟨_, [c], cs, rfl, .token (spells_shortSymbol hshort) ?_ ho⟩
    intro other hother hpre
    rcases hother.of_symbol_prefix hc hpre with ⟨rfl, hop⟩ | ⟨rfl, -⟩
    · exact absurd hop hlong
    · simp
  · obtain ⟨⟨⟨hl, -⟩, hq⟩, -⟩ := by
      simpa only [isSymbolStart, Bool.and_eq_true, Bool.not_eq_true'] using hc
    refine .inr ⟨_, .badCharacter hl hq ho fun other hother hpre => ?_⟩
    rcases hother.of_symbol_prefix hc hpre with ⟨rfl, hop⟩ | ⟨-, hs⟩
    · exact hlong hop
    · exact hshort hs

end Beginning

theorem determined (c : Char) (cs : List Char) : Determined (c :: cs) := by
  by_cases hl : isLayout c = true
  · exact determined_layout hl
  by_cases ho : OpensComment (c :: cs)
  · exact determined_comment ho
  by_cases hd : c.isDigit = true
  · exact determined_digit ho hd
  by_cases hq : isQuote c = true
  · exact determined_quote ho hq
  by_cases hw : isWordStart c = true
  · exact determined_wordStart ho hw
  · exact determined_symbolStart ho (by simp [isSymbolStart, hl, hd, hq, hw])

theorem commentLength_cons {c : Char} {cs : List Char} (h : ¬ ['*', '/'] <+: c :: cs) :
    commentLength (c :: cs) = commentLength cs + 1 := by
  rw [commentLength]
  rintro rest rfl rfl
  exact h ⟨rest, rfl⟩

theorem commentLength_closed {body : List Char} (h : ¬ ['*', '/'] <:+: body) (rest : List Char) :
    commentLength (body ++ '*' :: '/' :: rest) = body.length + 2 := by
  induction body with
  | nil => rfl
  | cons c body ih =>
    obtain ⟨hp, hb⟩ := not_or.mp (List.infix_cons_iff.not.mp h)
    -- the marks that close the comment do not begin one character earlier
    have hno : ¬ ['*', '/'] <+: c :: (body ++ '*' :: '/' :: rest) := by
      cases body with
      | nil => simp
      | cons d body => simpa [List.cons_prefix_cons] using hp
    rw [List.cons_append, commentLength_cons hno, ih hb, List.length_cons]

theorem commentLength_open {cs : List Char} (h : ¬ ['*', '/'] <:+: cs) :
    commentLength cs = cs.length := by
  induction cs with
  | nil => rfl
  | cons c cs ih =>
    obtain ⟨hp, hcs⟩ := not_or.mp (List.infix_cons_iff.not.mp h)
    rw [commentLength_cons hp, ih hcs, List.length_cons]

/-- The longest lexeme has nothing behind it that would go on with it. -/
theorem Longest.stop {text rest : List Char} (h : Longest text (text ++ rest)) {c : Char}
    (hc : c ∈ rest.head?) : ¬ Candidate (text ++ [c]) := by
  intro hcand
  have hp : text ++ [c] <+: text ++ rest := by
    rw [List.prefix_append_right_inj]
    obtain ⟨rest, rfl⟩ := List.head?_eq_some_iff.mp hc
    simp
  have hle := h _ hcand hp
  rw [List.length_append, List.length_singleton] at hle
  omega

theorem IsWord.append_singleton {cs : List Char} {c : Char} (h : IsWord cs)
    (hc : isWordPart c = true) : IsWord (cs ++ [c]) := by
  cases cs with
  | nil => exact h.elim
  | cons d ds => exact ⟨h.1, List.forall_mem_append.mpr ⟨h.2, by simpa using hc⟩⟩

/-- A spelled lexeme is the segment at the start of a text, if the next character does not go on
with it and it opens no comment. -/
theorem segment_of_stop {x : Lexeme} {text rest : List Char} (hx : Spells x text)
    (hl : ∀ c ∈ rest.head?, ¬ Candidate (text ++ [c])) (ho : ¬ OpensComment (text ++ rest)) :
    ∃ d ds, text = d :: ds ∧ segment d (ds ++ rest) = .ok ⟨text.length, some x⟩ := by
  cases hx with
  | @plain k s hk he hg =>
    cases k with
    | string => exact absurd rfl hk
    | eof => exact absurd rfl he
    | number =>
      refine segment_number hg fun c hc => ?_
      rw [← Bool.not_eq_true]
      intro hnum
      obtain ⟨d, ds, hs, hd⟩ := IsNumeral.begins hg
      refine hl c hc ?_
      rw [hs, List.cons_append]
      refine .run hd (List.forall_mem_append.mpr ⟨fun x hx => ?_, by simpa using hnum⟩)
      exact IsNumeral.chars hg x (hs ▸ List.mem_cons_of_mem d hx)
    | ident =>
      refine segment_word hg fun c hc => ?_
      rw [← Bool.not_eq_true]
      intro hpart
      exact hl c hc (.spelling (.word (IsWord.append_singleton hg hpart)))
    | symbol t =>
      obtain ⟨rfl, ht⟩ := hg
      exact segment_symbol ht (fun c hc hop => hl c hc (.spelling (spells_longOperator hop))) ho
  | @string s q hq hs =>
    refine ⟨q, s.toList ++ [q], rfl, ?_⟩
    rw [List.append_assoc, List.singleton_append, segment_string hq hs]
    simp

theorem segment_of_token {x : Lexeme} {text rest : List Char} (hx : Spells x text)
    (hl : Longest text (text ++ rest)) (ho : ¬ OpensComment (text ++ rest)) :
    ∃ d ds, text = d :: ds ∧ segment d (ds ++ rest) = .ok ⟨text.length, some x⟩ :=
  segment_of_stop hx (fun _ hc => hl.stop hc) ho

theorem segment_of_fits {x : Option Lexeme} {text rest : List Char} (h : Fits x text rest) :
    ∃ d ds, text = d :: ds ∧ segment d (ds ++ rest) = .ok ⟨text.length, x⟩ := by
  cases h with
  | blanks hn ht hr =>
    obtain ⟨d, ds, rfl⟩ := List.exists_cons_of_ne_nil hn
    obtain ⟨hd, hds⟩ := List.forall_mem_cons.mp ht
    refine ⟨d, ds, rfl, ?_⟩
    simp [segment, hd, takeWhile_append_of_stop hds hr, layout]
  | @lineComment text _ ht hr =>
    have hrun : (text ++ rest).takeWhile (fun c => !decide (c = '\n')) = text := by
      refine takeWhile_append_of_stop (fun x hx => ?_) fun c hc => ?_
      · simpa using fun hxn : x = '\n' => ht (hxn ▸ hx)
      · simpa using hr c hc
    refine ⟨'/', '/' :: text, rfl, ?_⟩
    simp [segment, layout, hrun, show isLayout '/' = false from rfl]
  | @blockComment text _ ht =>
    refine ⟨'/', '*' :: (text ++ ['*', '/']), rfl, ?_⟩
    simp [segment, layout, commentLength_closed ht, show isLayout '/' = false from rfl]
  | @openComment text ht =>
    refine ⟨'/', '*' :: text, rfl, ?_⟩
    simp [segment, layout, commentLength_open ht, show isLayout '/' = false from rfl]
  | token hx hl ho => exact segment_of_token hx hl ho

theorem segment_of_stuck {cs : List Char} {message : String} (h : Stuck cs message) :
    ∃ d ds cause, cs = d :: ds ∧ segment d ds = .error cause ∧ cause.text = message := by
  cases h with
  | @openString q cs hq hs =>
    refine ⟨q, cs, .openString, rfl, ?_, rfl⟩
    have hrun : cs.takeWhile (fun c => !decide (c = q)) = cs := by
      refine List.takeWhile_eq_self_iff.mpr fun x hx => ?_
      simpa using fun hxq : x = q => hs (hxq ▸ hx)
    obtain ⟨h₁, h₂, h₃⟩ := quote_alone hq
    simp [segment, stringSegment, h₁, h₂, h₃, hq, hrun]
  | @badNumber d ds rest hd hds hr hn =>
    refine ⟨d, ds ++ rest, .badNumber (String.ofList (d :: ds)), rfl, ?_, rfl⟩
    have hrun : (d :: ds ++ rest).takeWhile (fun c => c.isDigit || decide (c = '.')) = d :: ds :=
      takeWhile_append_of_stop (List.forall_mem_cons.mpr ⟨by simp [hd], hds⟩) hr
    rw [List.cons_append] at hrun
    have hn' : isNumeral (d :: ds) = false := by
      rw [← Bool.not_eq_true, isNumeral_iff]
      exact hn
    obtain ⟨h₁, h₂⟩ := digit_alone hd
    simp only [segment, h₁, h₂, hd, numberSegment, hrun, hn', Bool.false_eq_true, if_false,
      decide_false, Bool.false_and, if_true]
  | @badCharacter c cs hl hq ho hn =>
    refine ⟨c, cs, .badCharacter c, rfl, ?_, rfl⟩
    have hd : c.isDigit = false := by
      rw [← Bool.not_eq_true]
      exact fun hd => hn [c] (.run hd (by simp)) (by simp)
    have hw : isWordStart c = false := by
      rw [← Bool.not_eq_true]
      exact fun hw => hn [c] (.spelling (.word ⟨hw, by simp⟩)) (by simp)
    have hlong : c :: cs.take 1 ∉ longOperators := fun hop =>
      hn _ (.spelling (spells_longOperator hop)) (by simp [List.take_prefix])
    have hshort : c ∉ shortSymbols := fun hs => hn _ (.spelling (spells_shortSymbol hs)) (by simp)
    rw [segment_eq_symbolSegment (by simp [isSymbolStart, hl, hd, hq, hw]) ho]
    simp [symbolSegment, hlong, hshort]

@[ext]
structure Piece where
  token? : Option Lexeme
  text : List Char

def textOf (ps : List Piece) : List Char := ps.flatMap Piece.text

@[simp] theorem textOf_nil : textOf [] = [] := rfl

@[simp] theorem textOf_cons (p : Piece) (ps : List Piece) :
    textOf (p :: ps) = p.text ++ textOf ps :=
  List.flatMap_cons

/-- Each piece fits, with the other pieces and `rest` behind it. -/
def Segmented : List Piece → List Char → Prop
  | [], _ => True
  | p :: ps, rest => Fits p.token? p.text (textOf ps ++ rest) ∧ Segmented ps rest

/-- The line of what has the text `before` ahead of it. -/
def lineAt (before : List Char) : Int := 1 + before.count '\n'

/-- The tokens of pieces that have the text `before` ahead of them. -/
def tokensOf : (before : List Char) → List Piece → List Token
  | _, [] => []
  | before, p :: ps =>
      p.token?.toList.map (fun x => ⟨x.1, x.2, lineAt before⟩) ++ tokensOf (before ++ p.text) ps

theorem foldl_lineAfter (before cs : List Char) :
    cs.foldl lineAfter (lineAt before) = lineAt (before ++ cs) := by
  induction cs generalizing before with
  | nil => simp
  | cons c cs ih =>
    have hline : lineAfter (lineAt before) c = lineAt (before ++ [c]) := by
      by_cases hc : c = '\n'
      · simp [lineAfter, lineAt, hc]
        omega
      · simp [lineAfter, lineAt, hc]
    rw [List.foldl_cons, hline, ih, List.append_assoc, List.singleton_append]

/-- The token of a piece comes first, on the line where the piece begins. -/
theorem scan_fits {x : Option Lexeme} {text rest : List Char} (h : Fits x text rest) (line : Int) :
    scan 0 line (text ++ rest) =
      (scan 0 (text.foldl lineAfter line) rest).map
        (x.toList.map (fun y => ⟨y.1, y.2, line⟩) ++ ·) := by
  obtain ⟨d, ds, rfl, hseg⟩ := segment_of_fits h
  rw [List.cons_append, scan, hseg]
  cases x with
  | none => exact (scan_skip ds rest _).trans (congrFun Except.map_id _).symm
  | some y => exact congrArg (Except.map _) (scan_skip ds rest _)

/-- The tokens of pieces come first, then those of the rest. -/
theorem scan_segmented {ps : List Piece} {rest : List Char} (h : Segmented ps rest)
    (before : List Char) :
    scan 0 (lineAt before) (textOf ps ++ rest) =
      (scan 0 (lineAt (before ++ textOf ps)) rest).map (tokensOf before ps ++ ·) := by
  induction ps generalizing before with
  | nil =>
    rw [textOf_nil, List.nil_append, List.append_nil]
    exact (congrFun Except.map_id _).symm
  | cons p ps ih =>
    rw [textOf_cons, List.append_assoc, scan_fits h.1, foldl_lineAfter, ih h.2, List.append_assoc]
    cases scan 0 (lineAt (before ++ (p.text ++ textOf ps))) rest with
    | error fault => rfl
    | ok ts => simp [Except.map, tokensOf]

/-- The text `cs` is cut into pieces up to `rest`, where no further one begins. -/
structure Cut (cs : List Char) (ps : List Piece) (rest : List Char) : Prop where
  text : textOf ps ++ rest = cs
  fits : Segmented ps rest
  ends : rest = [] ∨ ∃ message, Stuck rest message

theorem exists_cut (cs : List Char) : ∃ ps rest, Cut cs ps rest := by
  -- a piece is never empty, so what is behind it is shorter
  induction hn : cs.length using Nat.strong_induction_on generalizing cs with
  | _ n ih =>
    cases cs with
    | nil => exact ⟨[], [], rfl, trivial, .inl rfl⟩
    | cons c cs =>
      rcases determined c cs with ⟨x, text, rest, htext, hfits⟩ | hstuck
      · obtain ⟨d, ds, rfl, -⟩ := segment_of_fits hfits
        have hlt : rest.length < n := by
          rw [← hn, htext, List.length_append, List.length_cons]
          omega
        obtain ⟨ps, rest', hcut⟩ := ih _ hlt rest rfl
        refine ⟨⟨x, d :: ds⟩ :: ps, rest', ?_, ⟨?_, hcut.fits⟩, hcut.ends⟩
        · rw [textOf_cons, List.append_assoc, hcut.text, htext]
        · rwa [hcut.text]
      · exact ⟨[], c :: cs, rfl, trivial, .inr hstuck⟩

/-- At one place of a text, one piece fits. -/
theorem Fits.unique {x y : Option Lexeme} {text rest text' rest' : List Char}
    (h : Fits x text rest) (h' : Fits y text' rest') (heq : text ++ rest = text' ++ rest') :
    x = y ∧ text = text' ∧ rest = rest' := by
  obtain ⟨d, ds, rfl, hseg⟩ := segment_of_fits h
  obtain ⟨d', ds', rfl, hseg'⟩ := segment_of_fits h'
  obtain ⟨rfl, hds⟩ : d = d' ∧ ds ++ rest = ds' ++ rest' := List.cons.inj heq
  rw [hds, hseg'] at hseg
  obtain ⟨hlen, hx⟩ := Segment.mk.inj (Except.ok.inj hseg)
  exact ⟨hx.symm, List.append_inj heq hlen.symm⟩

/-- Where a text is cut off, no piece fits. -/
theorem Cut.no_piece {cs rest text behind : List Char} {ps : List Piece} {x : Option Lexeme}
    (h : Cut cs ps rest) (hf : Fits x text behind) : rest ≠ text ++ behind := by
  rintro rfl
  obtain ⟨d, ds, rfl, hseg⟩ := segment_of_fits hf
  rcases h.ends with hnil | ⟨message, hstuck⟩
  · cases hnil
  · obtain ⟨d', ds', cause, heq, herr, -⟩ := segment_of_stuck hstuck
    obtain ⟨rfl, rfl⟩ := List.cons.inj heq
    cases hseg.symm.trans herr

theorem Cut.unique {cs rest rest' : List Char} {ps qs : List Piece} (h : Cut cs ps rest)
    (h' : Cut cs qs rest') : ps = qs ∧ rest = rest' := by
  induction ps generalizing cs qs with
  | nil =>
    cases qs with
    | nil => exact ⟨rfl, h.text.trans h'.text.symm⟩
    | cons q qs =>
      refine absurd ?_ (h.no_piece h'.fits.1)
      simpa using h.text.trans h'.text.symm
  | cons p ps ih =>
    cases qs with
    | nil =>
      refine absurd ?_ (h'.no_piece h.fits.1)
      simpa using h'.text.trans h.text.symm
    | cons q qs =>
      have heq := h.text.trans h'.text.symm
      rw [textOf_cons, textOf_cons, List.append_assoc, List.append_assoc] at heq
      obtain ⟨hx, ht, hrest⟩ := Fits.unique h.fits.1 h'.fits.1 heq
      obtain ⟨rfl, rfl⟩ := ih ⟨rfl, h.fits.2, h.ends⟩ ⟨hrest.symm, h'.fits.2, h'.ends⟩
      obtain rfl := Piece.ext hx ht
      exact ⟨rfl, rfl⟩

theorem tokenize_of_cut_nil {source : String} {ps : List Piece} (h : Cut source.toList ps []) :
    tokenize source = .ok (tokensOf [] ps ++ [⟨.eof, "", lineAt source.toList⟩]) := by
  have hscan := scan_segmented h.fits []
  rw [h.text, List.nil_append, ← List.append_nil (textOf ps), h.text] at hscan
  exact hscan

theorem tokenize_of_cut_stuck {source : String} {ps : List Piece} {rest : List Char}
    {message : String} (h : Cut source.toList ps rest) (hs : Stuck rest message) :
    ∃ fault, tokenize source = .error fault ∧
      fault.diagnosis = ⟨"LexicalError", message, some (lineAt (textOf ps))⟩ := by
  obtain ⟨d, ds, cause, rfl, herr, rfl⟩ := segment_of_stuck hs
  have hscan := scan_segmented h.fits []
  rw [h.text, List.nil_append, scan, herr] at hscan
  exact ⟨⟨cause, lineAt (textOf ps)⟩, hscan, rfl⟩

/-- Reading a text into tokens is cutting it into the longest pieces: a text is cut in one way, its
tokens are those of the pieces and an end token behind them, and there are none exactly if the
pieces do not reach the end, with a fault on the line where they stop. -/
theorem tokenize_exactly_longest (source : String) :
    (∃! cut : List Piece × List Char, Cut source.toList cut.1 cut.2) ∧
      (∀ ts, tokenize source = .ok ts ↔
        ∃ ps, Cut source.toList ps [] ∧
          ts = tokensOf [] ps ++ [⟨.eof, "", lineAt source.toList⟩]) ∧
      ∀ d, (∃ fault, tokenize source = .error fault ∧ fault.diagnosis = d) ↔
        ∃ ps rest message, Cut source.toList ps rest ∧ Stuck rest message ∧
          d = ⟨"LexicalError", message, some (lineAt (textOf ps))⟩ := by
  obtain ⟨ps, rest, hcut⟩ := exists_cut source.toList
  refine ⟨⟨(ps, rest), hcut, ?_⟩, fun ts => ⟨fun h => ?_, ?_⟩, fun d => ⟨?_, ?_⟩⟩
  · rintro ⟨qs, rest'⟩ hcut'
    obtain ⟨rfl, rfl⟩ := hcut'.unique hcut
    rfl
  · rcases hcut.ends with rfl | ⟨message, hstuck⟩
    · exact ⟨ps, hcut, Except.ok.inj (h.symm.trans (tokenize_of_cut_nil hcut))⟩
    · obtain ⟨fault, herr, -⟩ := tokenize_of_cut_stuck hcut hstuck
      rw [h] at herr
      cases herr
  · rintro ⟨qs, hcut', rfl⟩
    exact tokenize_of_cut_nil hcut'
  · rintro ⟨fault, h, rfl⟩
    rcases hcut.ends with rfl | ⟨message, hstuck⟩
    · rw [tokenize_of_cut_nil hcut] at h
      cases h
    · obtain ⟨fault', herr, hd⟩ := tokenize_of_cut_stuck hcut hstuck
      rw [h] at herr
      cases herr
      exact ⟨ps, rest, message, hcut, hstuck, hd⟩
  · rintro ⟨qs, rest', message, hcut', hstuck, rfl⟩
    exact tokenize_of_cut_stuck hcut' hstuck

end Script.Token
