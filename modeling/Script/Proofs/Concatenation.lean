import Script.Proofs.RoundTrip
import Script.Session

/-!
# Programs behind each other

A program that leaves no comment open and ends in a semicolon or a brace does not depend on what
comes after it: with another program on the next lines, its tokens and its statements stay what they
are. So running both texts as one is running them one after the other.
-/
namespace Script

namespace Grammar

open Category

def front (xs : List Lexeme) : List Lexeme := xs.takeWhile (·.1 ≠ .eof)

@[simp] theorem front_cons {x : Lexeme} (h : x.1 ≠ .eof) (xs : List Lexeme) :
    front (x :: xs) = x :: front xs := by
  simp [front, h]

theorem front_append {xs : List Lexeme} (h : ∀ x ∈ xs, x.1 ≠ .eof) (v : String) :
    front (xs ++ [(.eof, v)]) = xs := by
  rw [front, List.takeWhile_append_of_pos (by simpa using h)]
  simp

def AtEnd (us : List Lexeme) : Prop := ∃ v vs, us = (.eof, v) :: vs

/-- The end is not among statements in braces. -/
theorem Derives.not_atEnd_of_body {ts us : List Lexeme} {e : Node} (h : Derives body ts e us) :
    ¬ AtEnd ts := by
  rintro ⟨v, vs, rfl⟩
  cases h with
  | bodyMore he =>
    obtain ⟨x, xs, hx, hb⟩ := he.begins
    exact hb.1 (congrArg Prod.fst (List.cons.inj hx).1).symm
  | loosen hc => cases hc
  | binary hc => cases hc

/-- The end is not among items. -/
theorem Derives.not_atEnd_of_moreItems {c : Category} {close : String} {ts us : List Lexeme}
    {e : Node} (h : Derives (moreItems c close) ts e us) : ¬ AtEnd ts := by
  rintro ⟨v, vs, rfl⟩
  cases h with
  | loosen hc => cases hc
  | binary hc => cases hc

/-- A phrase stays the same if other lexemes take the place of the end, unless it stops there
without having been closed: a program, or an expression without a semicolon. -/
theorem Derives.going_on {k : Category} {ts us : List Lexeme} {e : Node} (h : Derives k ts e us)
    (more : List Lexeme)
    (hd : AtEnd us → k ≠ program ∧ (k = statement → ¬ Derives assignment ts e us)) :
    Derives k (front ts ++ more) e (front us ++ more) := by
  have inner {k ts e us}
      (ih : (AtEnd us → k ≠ program ∧ (k = statement → ¬ Derives assignment ts e us)) →
        Derives k (front ts ++ more) e (front us ++ more))
      (hk : k ≠ program ∧ k ≠ statement) :
      Derives k (front ts ++ more) e (front us ++ more) :=
    ih fun _ => ⟨hk.1, fun h => absurd h hk.2⟩
  induction h with
  | @loosen c d ts e us hc h ih =>
    refine .loosen hc (inner ih ?_)
    cases c <;> cases hc <;> simp
  | number s us => simpa using Derives.number s (front us ++ more)
  | string s us => simpa using Derives.string s (front us ++ more)
  | isTrue us => simpa using Derives.isTrue (front us ++ more)
  | isFalse us => simpa using Derives.isFalse (front us ++ more)
  | null us => simpa using Derives.null (front us ++ more)
  | identifier us hs => simpa using Derives.identifier (front us ++ more) hs
  | call v hs h ih => simpa using Derives.call v hs (inner ih (by simp))
  | paren v w h ih => simpa using Derives.paren v w (by simpa using inner ih (by simp))
  | array v h ih => simpa using Derives.array v (inner ih (by simp))
  | index v w he hi ih₁ ih₂ =>
    exact .index v w (by simpa using inner ih₁ (by simp)) (by simpa using inner ih₂ (by simp))
  | negation v hs h ih => simpa using Derives.negation v hs (inner ih (by simp))
  | stepBefore v hs h ih => simpa using Derives.stepBefore v hs (inner ih (by simp))
  | stepAfter hs h ih => exact .stepAfter hs (by simpa using inner ih (by simp))
  | @binary c d _ _ _ _ _ _ _ hc hs ha hb ih₁ ih₂ =>
    have hk : (c ≠ program ∧ c ≠ statement) ∧ d ≠ program ∧ d ≠ statement := by
      cases c <;> cases hc <;> simp
    exact .binary hc hs (by simpa using inner ih₁ hk.1) (inner ih₂ hk.2)
  | assign hs hx he ih₁ ih₂ =>
    exact .assign hs (by simpa using inner ih₁ (by simp)) (inner ih₂ (by simp))
  | name us hs => simpa using Derives.name (front us ++ more) hs
  | noItems v us => simpa using Derives.noItems v (front us ++ more)
  | someItems he hes ih₁ ih₂ =>
    exact .someItems (ih₁ fun h => absurd h hes.not_atEnd_of_moreItems) (inner ih₂ (by simp))
  | noMore v us => simpa using Derives.noMore v (front us ++ more)
  | more v he hes ih₁ ih₂ =>
    have he' := ih₁ fun h => absurd h hes.not_atEnd_of_moreItems
    simpa using Derives.more v he' (inner ih₂ (by simp))
  | uninitialized v us hs => simpa using Derives.uninitialized v (front us ++ more) hs
  | initialized v w hk hs h ih =>
    simpa using Derives.initialized v w hk hs (by simpa using inner ih (by simp))
  | bodyEnd v us => simpa using Derives.bodyEnd v (front us ++ more)
  | bodyMore he hes ih₁ ih₂ =>
    exact .bodyMore (ih₁ fun h => absurd h hes.not_atEnd_of_body) (inner ih₂ (by simp))
  | block v h ih => simpa using Derives.block v (inner ih (by simp))
  | ofBlock h ih => exact .ofBlock (inner ih (by simp))
  | ofDeclaration h ih => exact .ofDeclaration (inner ih (by simp))
  | ofExpression h hu ih =>
    have he := inner ih (by simp)
    cases hu with
    | semicolon v us => exact .ofExpression (by simpa using he) (.semicolon v _)
    | brace v us =>
      rw [front_cons (by simp)] at he ⊢
      exact .ofExpression he (.brace v _)
    | eof v us => exact absurd h ((hd ⟨v, us, rfl⟩).2 rfl)
  | empty v us => simpa using Derives.empty v (front us ++ more)
  | function v hs hp hb ih₁ ih₂ =>
    simpa using Derives.function v hs (inner ih₁ (by simp)) (inner ih₂ (by simp))
  | ifThen v w he ha ih₁ ih₂ =>
    simpa using Derives.ifThen v w (by simpa using inner ih₁ (by simp)) (inner ih₂ (by simp))
  | ifElse v w he ha hb ih₁ ih₂ ih₃ =>
    simpa using Derives.ifElse v w (by simpa using inner ih₁ (by simp))
      (by simpa using inner ih₂ (by simp)) (inner ih₃ (by simp))
  | «while» v w he hb ih₁ ih₂ =>
    simpa using Derives.while v w (by simpa using inner ih₁ (by simp)) (inner ih₂ (by simp))
  | forDeclared v w₁ w₂ hi he hn hb ih₁ ih₂ ih₃ ih₄ =>
    simpa using Derives.forDeclared v w₁ w₂ (inner ih₁ (by simp))
      (by simpa using inner ih₂ (by simp)) (by simpa using inner ih₃ (by simp))
      (inner ih₄ (by simp))
  | forExpression v w₀ w₁ w₂ hi he hn hb ih₁ ih₂ ih₃ ih₄ =>
    simpa using Derives.forExpression v w₀ w₁ w₂ (by simpa using inner ih₁ (by simp))
      (by simpa using inner ih₂ (by simp)) (by simpa using inner ih₃ (by simp))
      (inner ih₄ (by simp))
  | returnNothing v us => simpa using Derives.returnNothing v (front us ++ more)
  | returnValue v h ih => simpa using Derives.returnValue v (by simpa using inner ih (by simp))
  | delete v us hs => simpa using Derives.delete v (front us ++ more) hs
  | programEnd v us => exact absurd rfl (hd ⟨v, us, rfl⟩).1
  | programMore he hes => exact absurd rfl (hd hes.rest_of_program).1

def closes (x : Lexeme) : Bool := x.1 = .symbol ";" || x.1 = .symbol "\x7d"

/-- The categories of expressions and of what they consist of. -/
def IsExpressive : Category → Prop
  | assignment | logical | comparison | additive | multiplicative | unary | indexed | primary =>
      True
  | items c close | moreItems c close => IsExpressive c ∧ close ≠ ";" ∧ close ≠ "\x7d"
  | _ => False

/-- No lexeme of an expression closes a statement. -/
theorem Derives.countP_closes {k : Category} {ts us : List Lexeme} {e : Node}
    (h : Derives k ts e us) (hk : IsExpressive k) : ts.countP closes = us.countP closes := by
  have hsymbol {s v : String} {xs : List Lexeme} (h₁ : s ≠ ";") (h₂ : s ≠ "\x7d") :
      ((.symbol s, v) :: xs : List Lexeme).countP closes = xs.countP closes :=
    List.countP_cons_of_neg (by simp [closes, h₁, h₂])
  have hword {s : String} {xs : List Lexeme} :
      ((.ident, s) :: xs : List Lexeme).countP closes = xs.countP closes :=
    List.countP_cons_of_neg (by simp [closes])
  have hprefix : ∀ s ∈ negations ++ steps, s ≠ ";" ∧ s ≠ "\x7d" := by decide
  induction h with
  | @loosen c d _ _ _ hc _ ih =>
    refine ih ?_
    cases c <;> cases hc <;> trivial
  | number | string => exact List.countP_cons_of_neg (by simp [closes])
  | isTrue | isFalse | null | identifier => exact hword
  | call _ _ _ ih =>
    rw [hword, hsymbol (by decide) (by decide)]
    exact ih ⟨trivial, by decide, by decide⟩
  | paren _ _ _ ih =>
    rw [hsymbol (by decide) (by decide), ih trivial, hsymbol (by decide) (by decide)]
  | array _ _ ih =>
    rw [hsymbol (by decide) (by decide)]
    exact ih ⟨trivial, by decide, by decide⟩
  | index _ _ _ _ ih₁ ih₂ =>
    rw [ih₁ trivial, hsymbol (by decide) (by decide), ih₂ trivial,
      hsymbol (by decide) (by decide)]
  | negation _ hs _ ih =>
    obtain ⟨h₁, h₂⟩ := hprefix _ (List.mem_append_left _ hs)
    rw [hsymbol h₁ h₂, ih trivial]
  | stepBefore _ hs _ ih =>
    obtain ⟨h₁, h₂⟩ := hprefix _ (List.mem_append_right _ hs)
    rw [hsymbol h₁ h₂, ih trivial]
  | stepAfter hs _ ih =>
    obtain ⟨h₁, h₂⟩ := hprefix _ (List.mem_append_right _ hs)
    rw [ih trivial, hsymbol h₁ h₂]
  | @binary c d s _ _ _ _ _ _ hc hs _ _ ih₁ ih₂ =>
    have hd : IsExpressive d := by cases c <;> cases hc <;> trivial
    have hop : ∀ s ∈ Node.binaryOperators, s ≠ ";" ∧ s ≠ "\x7d" := by decide
    obtain ⟨h₁, h₂⟩ := hop s (Node.operators_subset c hs)
    rw [ih₁ hk, hsymbol h₁ h₂, ih₂ hd]
  | @assign s f _ _ _ _ _ _ hs _ _ ih₁ ih₂ =>
    have hop : ∀ a ∈ Parse.assignments, a.1 ≠ ";" ∧ a.1 ≠ "\x7d" := by decide
    obtain ⟨h₁, h₂⟩ := hop _ hs
    rw [ih₁ trivial, hsymbol h₁ h₂, ih₂ trivial]
  | noItems | noMore => exact hsymbol hk.2.1 hk.2.2
  | someItems _ _ ih₁ ih₂ => rw [ih₁ hk.1, ih₂ hk]
  | more _ _ _ ih₁ ih₂ => rw [hsymbol (by decide) (by decide), ih₁ hk.1, ih₂ hk]
  | _ => exact hk.elim

/-- An expression at the end is not closed. -/
theorem Derives.open_expression {xs us : List Lexeme} {v : String} {e : Node}
    (h : Derives assignment (xs ++ [(.eof, v)]) e us) (hend : AtEnd us)
    (hx : ∀ x ∈ xs, x.1 ≠ .eof) :
    ∃ x ∈ xs.getLast?, closes x = false := by
  obtain ⟨w, ws, rfl⟩ := hend
  obtain hnil | ⟨bs, hbs, hsuffix⟩ := List.suffix_concat_iff.mp h.suffix
  · cases hnil
  obtain rfl : bs = [] := by
    cases bs with
    | nil => rfl
    | cons b bs =>
      obtain ⟨rfl, -⟩ := List.cons.inj hbs
      exact absurd rfl (hx _ (hsuffix.subset List.mem_cons_self))
  obtain ⟨-, rfl⟩ := List.cons.inj hbs
  have hcount := h.countP_closes trivial
  have hlength := h.length_lt (by simp)
  cases hlast : xs.getLast? with
  | none => simp [List.getLast?_eq_none_iff.mp hlast] at hlength
  | some x =>
    refine ⟨x, rfl, ?_⟩
    have hno : xs.countP closes = 0 := by simpa [closes] using hcount
    simpa using List.countP_eq_zero.mp hno x (List.mem_of_getLast? hlast)

/-- Programs stand behind each other, if the first one leaves nothing open. -/
theorem Derives.append_program {xs ys zs : List Lexeme} {v w : String} {es fs : List Node}
    (h : Derives program (xs ++ [(.eof, v)]) (.list es) [(.eof, w)]) (hx : ∀ x ∈ xs, x.1 ≠ .eof)
    (hlast : ∀ x ∈ xs.getLast?, closes x = true) (h' : Derives program ys (.list fs) zs) :
    Derives program (xs ++ ys) (.list (es ++ fs)) zs := by
  generalize hts : xs ++ [(.eof, v)] = ts at h
  induction es generalizing xs ts with
  | nil =>
    cases h with
    | programEnd v us =>
      obtain rfl : xs = [] := by
        cases xs with
        | nil => rfl
        | cons x xs => simp at hts
      exact h'
    | loosen hc => cases hc
  | cons e es ih =>
    cases h with
    | @programMore _ _ us _ _ he hes =>
      obtain ⟨x, xs', hus, -⟩ := hes.begins
      subst hts
      obtain rfl | ⟨bs, rfl, hbs⟩ := List.suffix_concat_iff.mp he.suffix
      · cases hus
      have hb : ∀ x ∈ bs, x.1 ≠ .eof := fun x hxb => hx x (hbs.subset hxb)
      have hfirst := he.going_on ys fun hend => ⟨by simp, fun _ hopen => ?_⟩
      · rw [front_append hx, front_append hb] at hfirst
        refine .programMore hfirst (ih hb (fun x hxb => hlast x ?_) _ rfl hes)
        obtain ⟨as, rfl⟩ := hbs
        rw [List.getLast?_append, Option.mem_def.mp hxb]
        rfl
      · obtain ⟨x, hxl, hno⟩ := hopen.open_expression hend hx
        exact Bool.false_ne_true (hno.symm.trans (hlast x hxl))
    | loosen hc => cases hc

end Grammar

namespace Token

/-- The last piece of the text is a comment in marks that are not closed. -/
def LeftOpen (source : String) : Prop :=
  ∃ ps body, ¬ ['*', '/'] <:+: body ∧ Cut source.toList (ps ++ [⟨none, '/' :: '*' :: body⟩]) []

/-- The last token before the end, if there is one, closes a statement. -/
def EndsClosed (source : String) : Prop :=
  ∀ ts last stop, tokenize source = .ok (ts ++ [last, stop]) →
    last.kind = .symbol ";" ∨ last.kind = .symbol "\x7d"

theorem Segmented.eq_nil {ps : List Piece} {rest : List Char} (h : Segmented ps rest)
    (ht : textOf ps = []) : ps = [] := by
  cases ps with
  | nil => rfl
  | cons p ps =>
    obtain ⟨d, ds, hp, -⟩ := segment_of_fits h.1
    simp [hp] at ht

/-- A lexeme is read alike if more follows behind what it has behind it. -/
theorem scan_token_append {x : Lexeme} {text rest : List Char} (hx : Spells x text)
    (hl : Longest text (text ++ rest)) (ho : ¬ OpensComment (text ++ rest)) (line : Int)
    (more : List Char) :
    scan 0 line (text ++ (rest ++ '\n' :: more)) =
      (scan 0 (text.foldl lineAfter line) (rest ++ '\n' :: more)).map (⟨x.1, x.2, line⟩ :: ·) := by
  cases rest with
  | nil => exact scan_spelled hx (by simp [Bounded, isLayout]) line
  | cons c rest =>
    have ho' : ¬ OpensComment (text ++ (c :: rest ++ '\n' :: more)) := by
      obtain ⟨d, ds, rfl, -⟩ := segment_of_token hx hl ho
      cases ds <;> simpa [opensComment_cons] using ho
    have hstop : ∀ d ∈ (c :: rest ++ '\n' :: more).head?, ¬ Candidate (text ++ [d]) :=
      fun _ hd => hl.stop hd
    obtain ⟨d, ds, rfl, hseg⟩ := segment_of_stop hx hstop ho'
    rw [List.cons_append, scan, hseg]
    exact congrArg (Except.map _) (scan_skip ds _ _)

theorem filler_of_blanks {text : List Char} (h : ∀ c ∈ text, isLayout c = true) : Filler text := by
  induction text with
  | nil => exact .nil
  | cons c cs ih =>
    obtain ⟨hc, hcs⟩ := List.forall_mem_cons.mp h
    exact .blank hc (ih hcs)

/-- So is every piece but a comment that is left open. -/
theorem scan_fits_append {x : Option Lexeme} {text rest : List Char} (h : Fits x text rest)
    (hopen : ∀ body, ¬ ['*', '/'] <:+: body → rest = [] → text ≠ '/' :: '*' :: body)
    (line : Int) (more : List Char) :
    scan 0 line (text ++ (rest ++ '\n' :: more)) =
      (scan 0 (text.foldl lineAfter line) (rest ++ '\n' :: more)).map
        (x.toList.map (fun y => ⟨y.1, y.2, line⟩) ++ ·) := by
  have hlayout {text} (h : scan 0 line (text ++ (rest ++ '\n' :: more)) =
      scan 0 (text.foldl lineAfter line) (rest ++ '\n' :: more)) :=
    h.trans (congrFun Except.map_id _).symm
  cases h with
  | blanks _ ht => exact hlayout (scan_filler (filler_of_blanks ht) _ line)
  | @lineComment text _ ht hr =>
    refine hlayout (scan_layout (.lineComment ht ?_) line)
    cases rest with
    | nil => simp
    | cons c rest => exact hr
  | @blockComment body _ ht =>
    have hfiller : Filler ('/' :: '*' :: (body ++ ['*', '/'])) := .block ht .nil
    exact hlayout (scan_filler hfiller _ line)
  | openComment ht => exact absurd rfl (hopen _ ht rfl)
  | token hx hl ho => exact scan_token_append hx hl ho line more

/-- The tokens of a text come first if another one follows on the next line. -/
theorem scan_segmented_append {ps : List Piece} (h : Segmented ps [])
    (hopen : ∀ body, ¬ ['*', '/'] <:+: body → ps.getLast? ≠ some ⟨none, '/' :: '*' :: body⟩)
    (before more : List Char) :
    scan 0 (lineAt before) (textOf ps ++ '\n' :: more) =
      (scan 0 (lineAt (before ++ (textOf ps ++ ['\n']))) more).map (tokensOf before ps ++ ·) := by
  induction ps generalizing before with
  | nil =>
    have hline := foldl_lineAfter before ['\n']
    rw [List.foldl_cons, List.foldl_nil] at hline
    rw [textOf_nil, List.nil_append, List.nil_append, scan_cons_blank rfl, hline]
    exact (congrFun Except.map_id _).symm
  | cons p ps ih =>
    have htail body (hb : ¬ ['*', '/'] <:+: body) :
        ps.getLast? ≠ some ⟨none, '/' :: '*' :: body⟩ := by
      intro hlast
      refine hopen body hb ?_
      rw [List.getLast?_cons, hlast]
      rfl
    have hfits : Fits p.token? p.text (textOf ps) := by simpa using h.1
    rw [textOf_cons, List.append_assoc, scan_fits_append hfits, foldl_lineAfter, ih h.2 htail]
    · rw [List.append_assoc, List.append_assoc]
      cases scan 0 (lineAt (before ++ (p.text ++ (textOf ps ++ ['\n'])))) more with
      | error fault => rfl
      | ok ts => simp [Except.map, tokensOf]
    · intro body hb hrest htext
      -- only the last piece has nothing behind it
      obtain rfl := h.2.eq_nil hrest
      obtain ⟨hnone, -, -⟩ := Fits.unique hfits (.openComment hb) (by rw [htext]; rfl)
      exact hopen body hb (congrArg some (Piece.ext hnone htext))

theorem map_bare_tokensOf (before : List Char) (ps : List Piece) :
    (tokensOf before ps).map bare = ps.filterMap Piece.token? := by
  induction ps generalizing before with
  | nil => rfl
  | cons p ps ih => cases hp : p.token? <;> simp [tokensOf, bare, hp, ih]

theorem Segmented.not_eof {ps : List Piece} {rest : List Char} (h : Segmented ps rest) :
    ∀ x ∈ ps.filterMap Piece.token?, x.1 ≠ .eof := by
  induction ps with
  | nil => simp
  | cons p ps ih =>
    intro x hx
    obtain ⟨q, hq, hqx⟩ := List.mem_filterMap.mp hx
    rcases List.mem_cons.mp hq with rfl | hq
    · have hfits := h.1
      rw [hqx] at hfits
      cases hfits with
      | token hx _ _ => exact hx.not_eof
    · exact ih h.2 x (List.mem_filterMap.mpr ⟨q, hq, hqx⟩)

/-- The lexemes of a text are those of its pieces. -/
theorem Cut.tokenize {source : String} {ps : List Piece} (h : Cut source.toList ps []) :
    ∃ ts, Token.tokenize source = .ok ts ∧
      ts.map bare = ps.filterMap Piece.token? ++ [(.eof, "")] := by
  refine ⟨_, tokenize_of_cut_nil h, ?_⟩
  rw [List.map_append, map_bare_tokensOf]
  rfl

/-- So are those of two texts on lines of their own. -/
theorem Cut.tokenize_append {first second : String} {ps qs : List Piece}
    (h : Cut first.toList ps []) (h' : Cut second.toList qs []) (hopen : ¬ LeftOpen first) :
    ∃ ts, Token.tokenize (first ++ "\n" ++ second) = .ok ts ∧
      ts.map bare = ps.filterMap Piece.token? ++ (qs.filterMap Piece.token? ++ [(.eof, "")]) := by
  have hfirst : textOf ps = first.toList := by simpa using h.text
  have hsecond : textOf qs = second.toList := by simpa using h'.text
  have hlast body (hb : ¬ ['*', '/'] <:+: body) :
      ps.getLast? ≠ some ⟨none, '/' :: '*' :: body⟩ := by
    intro hl
    obtain ⟨init, rfl⟩ := List.getLast?_eq_some_iff.mp hl
    exact hopen ⟨init, body, hb, h⟩
  have hscan := scan_segmented_append h.fits hlast [] second.toList
  have hrest := scan_segmented h'.fits (first.toList ++ ['\n'])
  rw [List.append_nil, hsecond] at hrest
  rw [List.nil_append, hfirst, hrest] at hscan
  have htext : (first ++ "\n" ++ second).toList = first.toList ++ '\n' :: second.toList := by simp
  refine ⟨_, (congrArg (scan 0 1) htext).trans hscan, ?_⟩
  simp only [List.map_append, map_bare_tokensOf]
  rfl

end Token

namespace Session

/-- Runs one statement in the root scope, and writes its value out with `echo` unless it is null. -/
def statement (echo : Bool) (n : Node) : Run Value := do
  let v ← evaluate passLimit depthLimit n Forest.root
  if echo && !v.isNull then Run.write (← v.content)
  return v

theorem statements_cons (echo : Bool) (values : List Value) (n : Node) (ns : List Node) :
    statements echo values (n :: ns) =
      statement echo n >>= fun v => statements echo (v :: values) ns := by
  simp only [statements, statement, bind_assoc]
  refine bind_congr fun v => ?_
  cases echo && !v.isNull <;> simp

/-- The values so far come first. -/
theorem statements_eq_map (echo : Bool) (values : List Value) (ns : List Node) :
    statements echo values ns = (values.reverse ++ ·) <$> statements echo [] ns := by
  induction ns generalizing values with
  | nil => simp [statements]
  | cons n ns ih =>
    rw [statements_cons, statements_cons, map_bind]
    refine bind_congr fun v => ?_
    rw [ih (v :: values), ih [v]]
    simp

theorem statements_append (echo : Bool) (values : List Value) (ns ns' : List Node) :
    statements echo values (ns ++ ns') = (do
      let vs ← statements echo values ns
      (vs ++ ·) <$> statements echo [] ns') := by
  induction ns generalizing values with
  | nil => simp [statements, statements_eq_map echo values ns']
  | cons n ns ih => simp [statements_cons, ih]

theorem tree_list (echo : Bool) (ns : List Node) (m : Machine) :
    tree echo (.program (.list ns)) m =
      match statements echo [] ns m with
      | .ok values m => (.ok values, m)
      | .error fault m => (.error (.run fault), m) :=
  rfl

/-- Statements run on from where others have come to, and not at all behind a fault. -/
theorem tree_append (echo : Bool) (ns ns' : List Node) (m : Machine) :
    tree echo (.program (.list (ns ++ ns'))) m =
      match tree echo (.program (.list ns)) m with
      | (.ok vs, m) =>
        let last := tree echo (.program (.list ns')) m
        (last.1.map (vs ++ ·), last.2)
      | (.error fault, m) => (.error fault, m) := by
  simp only [tree_list, statements_append, bind, EStateM.bind]
  cases statements echo [] ns m with
  | error fault m => rfl
  | ok vs m =>
    simp only [Functor.map, EStateM.map]
    cases statements echo [] ns' m <;> rfl

end Session

namespace Node

open Token

theorem closed_lexemes {ps : List Piece} {rest : List Char} (h : Segmented ps rest) :
    Grammar.Closed (ps.filterMap Piece.token? ++ [(.eof, "")]) :=
  ⟨_, "", rfl, h.not_eof⟩

/-- The pieces of a program's text, and its statements. -/
theorem exists_cut_of_ofSource {source : String} {p : Node} (h : ofSource source = .ok p) :
    ∃ ps ns v, Cut source.toList ps [] ∧ p = .program (.list ns) ∧
      Grammar.Derives .program (ps.filterMap Piece.token? ++ [(.eof, "")]) (.list ns)
        [(.eof, v)] := by
  obtain ⟨ps, rest, hcut⟩ := exists_cut source.toList
  rcases hcut.ends with rfl | ⟨message, hstuck⟩
  · obtain ⟨ts, hts, hbare⟩ := hcut.tokenize
    have hp := (ofSource_eq_ok_iff hts p).mp h
    rw [ofTokens_eq_ok_iff (hbare ▸ closed_lexemes hcut.fits), hbare] at hp
    obtain ⟨body, v, rfl, hd⟩ := hp
    obtain ⟨hs⟩ := wellFormed_of_ofSource h
    exact ⟨ps, _, v, hcut, rfl, hd⟩
  · obtain ⟨fault, herr, -⟩ := tokenize_of_cut_stuck hcut hstuck
    simp [ofSource, herr] at h

/-- The last lexeme of a text's pieces is that of its last token. -/
theorem closes_getLast {source : String} {ps : List Piece} (h : Cut source.toList ps [])
    (hlast : EndsClosed source) :
    ∀ x ∈ (ps.filterMap Piece.token?).getLast?, Grammar.closes x = true := by
  intro x hx
  rw [← map_bare_tokensOf [], List.getLast?_map] at hx
  obtain ⟨t, ht, rfl⟩ := Option.map_eq_some_iff.mp hx
  obtain ⟨ts, hts⟩ := List.getLast?_eq_some_iff.mp ht
  have hsource := tokenize_of_cut_nil h
  rw [hts, List.append_assoc] at hsource
  rw [Grammar.closes, Bool.or_eq_true, decide_eq_true_iff, decide_eq_true_iff]
  exact hlast ts t _ hsource

theorem ofSource_append {first second : String} {p q : Node} (hp : ofSource first = .ok p)
    (hq : ofSource second = .ok q) (hopen : ¬ LeftOpen first) (hlast : EndsClosed first) :
    ∃ ns ns', p = .program (.list ns) ∧ q = .program (.list ns') ∧
      ofSource (first ++ "\n" ++ second) = .ok (.program (.list (ns ++ ns'))) := by
  obtain ⟨ps, ns, v, hcut, rfl, hd⟩ := exists_cut_of_ofSource hp
  obtain ⟨qs, ns', w, hcut', rfl, hd'⟩ := exists_cut_of_ofSource hq
  obtain ⟨ts, hts, hbare⟩ := hcut.tokenize_append hcut' hopen
  have hjoined := hd.append_program hcut.fits.not_eof (closes_getLast hcut hlast) hd'
  have hclosed : Grammar.Closed (ts.map bare) := by
    refine ⟨ps.filterMap Piece.token? ++ qs.filterMap Piece.token?, "", ?_, ?_⟩
    · rw [hbare, List.append_assoc]
    · exact List.forall_mem_append.mpr ⟨hcut.fits.not_eof, hcut'.fits.not_eof⟩
  refine ⟨ns, ns', rfl, rfl, ?_⟩
  rw [ofSource_eq_ok_iff hts, ofTokens_eq_ok_iff hclosed, hbare]
  exact ⟨_, w, rfl, hjoined⟩

end Node

namespace Session

open Token

/-- Texts compose: where the first one leaves no comment open and its last token closes a statement,
the second one on the next line adds its statements to those of the first, and running both as one
text is running one after the other, up to the first fault. -/
theorem source_append {first second : String} {p q : Node} (hp : Node.ofSource first = .ok p)
    (hq : Node.ofSource second = .ok q) (hopen : ¬ LeftOpen first) (hlast : EndsClosed first) :
    (∃ ns ns', p = .program (.list ns) ∧ q = .program (.list ns') ∧
      Node.ofSource (first ++ "\n" ++ second) = .ok (.program (.list (ns ++ ns')))) ∧
    ∀ echo m,
      (∀ vs m', source echo first m = (.ok vs, m') →
        source echo (first ++ "\n" ++ second) m =
          ((source echo second m').1.map (vs ++ ·), (source echo second m').2)) ∧
      ∀ fault m', source echo first m = (.error fault, m') →
        source echo (first ++ "\n" ++ second) m = (.error fault, m') := by
  obtain ⟨ns, ns', rfl, rfl, hjoined⟩ := Node.ofSource_append hp hq hopen hlast
  refine ⟨⟨ns, ns', rfl, rfl, hjoined⟩, fun echo m => ⟨fun vs m' h => ?_, fun fault m' h => ?_⟩⟩
  · simp only [source, hp, hq, hjoined] at h ⊢
    rw [tree_append, h]
  · simp only [source, hp, hjoined] at h ⊢
    rw [tree_append, h]

/-- A text that ends in a comment with a brace, and a text that would go on with an expression. -/
theorem source_append_bracket :
    Node.ofSource ("a;//\x7b" ++ "\n" ++ "[a];") =
      .ok (.program (.list [.identifier (.text "a"),
        .arrayLiteral (.list [.identifier (.text "a")])])) ∧
    ∀ echo m fault m', source echo "a;//\x7b" m = (.error fault, m') →
      source echo ("a;//\x7b" ++ "\n" ++ "[a];") m = (.error fault, m') := by
  have ha : (Node.identifier (.text "a")).Expression := .identifier (by decide)
  have hfirst : Node.ofSource "a;//\x7b" = .ok (.program (.list [.identifier (.text "a")])) :=
    Node.ofSource_of_tokens (.program (by simpa using .expression ha)) (by decide +kernel)
  have hsecond : Node.ofSource "[a];" =
      .ok (.program (.list [.arrayLiteral (.list [.identifier (.text "a")])])) :=
    Node.ofSource_of_tokens (.program (by simpa using .expression (.array (by simpa using ha))))
      (by decide +kernel)
  have htokens : tokenize "a;//\x7b" =
      .ok [⟨.ident, "a", 1⟩, ⟨.symbol ";", ";", 1⟩, ⟨.eof, "", 1⟩] := by decide +kernel
  have hopen : ¬ LeftOpen "a;//\x7b" := by
    rintro ⟨ps, body, -, hcut⟩
    have hinfix : ['/', '*'] <:+: "a;//\x7b".toList :=
      ⟨textOf ps, body, by simpa [textOf] using hcut.text⟩
    exact absurd hinfix (by decide)
  have hlast : EndsClosed "a;//\x7b" := by
    intro ts last _ h
    have hts := congrArg (·.reverse[1]?) (Except.ok.inj (htokens.symm.trans h))
    simp only [List.reverse_append] at hts
    obtain rfl : _ = last := Option.some.inj hts
    exact .inl rfl
  obtain ⟨⟨ns, ns', hns, hns', hjoined⟩, hrun⟩ := source_append hfirst hsecond hopen hlast
  cases hns
  cases hns'
  exact ⟨hjoined, fun echo m => (hrun echo m).2⟩

end Session
end Script
