import Script.Proofs.Cursor
import Script.Proofs.Lookahead

/-!
# Rules find what the grammar derives

A rule goes through on every phrase of its category that nothing behind it makes longer, and
gives the tree of the phrase. The bounds of the rules count lexemes: a rule inside brackets has a
bound that is smaller by one, and at least one lexeme less ahead of it. A level that groups to the
left is followed operand by operand: `n` of the bound are left when the loop stands behind the
phrase.
-/
namespace Script.Parse

open Grammar Cursor

/-- `p` reads the phrase with the tree `e` at `c` and stops where `us` is ahead. -/
def Reads {α : Type} (p : Parse α) (tree : α → Node) (c : Cursor) (e : Node) (us : List Lexeme) :
    Prop :=
  ∃ a d, p c = .ok (a, d) ∧ tree a = e ∧ d.view = us ∧ d.HasEnd

/-- `p` reads every phrase of the category `k` that has at most `limit` lexemes ahead. -/
def Complete {α : Type} (p : Parse α) (tree : α → Node) (k : Category) (limit : Nat) : Prop :=
  ∀ ⦃c : Cursor⦄ ⦃e : Node⦄ ⦃us : List Lexeme⦄, c.HasEnd → c.view.length ≤ limit →
    Derives k c.view e us → Stops k us → Reads p tree c e us

theorem at_lexeme {c : Cursor} {k : Token.Kind} {v : String} {ts : List Lexeme} (hc : c.HasEnd)
    (h : c.view = (k, v) :: ts) (hk : k ≠ .eof) :
    c.current.kind = k ∧ c.current.value = v ∧ c.next.view = ts ∧ c.next.HasEnd := by
  obtain ⟨h₁, h₂⟩ := current_of_view h
  obtain ⟨h₃, h₄⟩ := next_view hc h hk
  exact ⟨h₁, h₂, h₃, h₄⟩

theorem at_symbol {c : Cursor} {s v : String} {ts : List Lexeme} (hc : c.HasEnd)
    (h : c.view = (.symbol s, v) :: ts) :
    c.current.kind = .symbol s ∧ c.current.value = v ∧ c.next.view = ts ∧ c.next.HasEnd :=
  at_lexeme hc h (by simp)

theorem at_ident {c : Cursor} {v : String} {ts : List Lexeme} (hc : c.HasEnd)
    (h : c.view = (.ident, v) :: ts) :
    c.current.kind = .ident ∧ c.current.value = v ∧ c.next.view = ts ∧ c.next.HasEnd :=
  at_lexeme hc h (by simp)

theorem kind_ne_of_stops {k : Category} {c : Cursor} {s : String} (h : Stops k c.view)
    (hs : s ∈ continuing k) : c.current.kind ≠ .symbol s := by
  intro hk
  simp only [view, viewOf, hk, reduceCtorEq, if_false, Token.bare, Stops] at h
  exact h hs

theorem not_isAtAny_of_stops {k : Category} {c : Cursor} (ss : List String) (h : Stops k c.view)
    (hs : ss ⊆ continuing k) : (ss.any fun s => decide (c.current.kind = .symbol s)) = false := by
  simp only [List.any_eq_false, decide_eq_true_eq]
  exact fun s hm => kind_ne_of_stops h (hs hm)

theorem isAtAny_of_mem {c : Cursor} {ss : List String} {s : String} (hs : s ∈ ss)
    (hk : c.current.kind = .symbol s) :
    (ss.any fun s => decide (c.current.kind = .symbol s)) = true := by
  simp only [List.any_eq_true, decide_eq_true_eq]
  exact ⟨s, hs, hk⟩

theorem view_length_pos (c : Cursor) : 0 < c.view.length :=
  List.length_pos_iff.mpr c.view_ne_nil

theorem name_complete (limit : Nat) : Complete name .text .name limit := by
  intro c e us hc _ h _
  generalize hts : c.view = ts at h
  cases h with
  | loosen hl | binary hl => cases hl
  | name us hs =>
    obtain ⟨hk, rfl, hv, hn⟩ := at_ident hc hts
    exact ⟨_, _, by rw [name_apply, if_pos hk, if_neg hs], rfl, hv, hn⟩

section Expressions

variable {α : Type} {p : Parse α} {tree : α → Node} {k : Category} {limit : Nat}

theorem moreItems_complete {close : String} (hp : Complete p tree k limit)
    (hcomma : "," ∉ continuing k) (hclose : close ∉ continuing k) (hne : close ≠ ",") (n : Nat)
    {c : Cursor} {es : List Node} {us : List Lexeme} (hc : c.HasEnd) (hn : c.view.length ≤ n)
    (hl : c.view.length ≤ limit) (h : Derives (.moreItems k close) c.view (.list es) us) :
    ∃ as d v, moreItems p n c = .ok (as, d) ∧ as.map tree = es ∧
      d.view = (.symbol close, v) :: us ∧ d.HasEnd := by
  induction n generalizing c es with
  | zero =>
    have := view_length_pos c
    omega
  | succ n ih =>
    generalize hts : c.view = ts at h
    cases h with
    | loosen hl => cases hl
    | noMore v us =>
      obtain ⟨hk, -, -, -⟩ := at_symbol hc hts
      refine ⟨[], c, v, ?_, rfl, hts, hc⟩
      simp [moreItems, hk, hne]
    | more v he hes =>
      obtain ⟨hk, -, hv, hn'⟩ := at_symbol hc hts
      have hlen : c.view.length = c.next.view.length + 1 := by rw [hts, hv, List.length_cons]
      obtain ⟨a, c₁, ha, rfl, hv₁, hn₁⟩ := hp hn' (by omega) (hv ▸ he)
        (hes.stops_item hcomma hclose)
      have hle := (hv ▸ he).suffix.length_le
      rw [← hv₁] at hes hle
      obtain ⟨as, d, w, has, rfl, hd, hdn⟩ := ih hn₁ (by omega) (by omega) hes
      refine ⟨a :: as, d, w, ?_, rfl, hd, hdn⟩
      simp only [moreItems, isAtSymbol_bind, hk, decide_true, if_true, advance_bind]
      rw [bind_of_ok ha, bind_of_ok has]
      rfl

theorem items_complete (hp : Complete p tree k limit) (close : String) (hcomma : "," ∉ continuing k)
    (hclose : close ∉ continuing k) (hne : close ≠ ",")
    (hbegin : ∀ v, ¬ Begins k (.symbol close, v)) {bound : Nat} (hb : limit ≤ bound) :
    Complete (items bound p close) (fun as => .list (as.map tree)) (.items k close) limit := by
  intro c e us hc hl h _
  generalize hts : c.view = ts at h
  cases h with
  | loosen hl | binary hl => cases hl
  | noItems v us =>
    obtain ⟨hk, -, hv, hn⟩ := at_symbol hc hts
    refine ⟨[], c.next, ?_, rfl, hv, hn⟩
    simp only [items, isAtSymbol_bind, hk, decide_true, if_true, advance_bind, pure_apply]
  | someItems he hes =>
    have hk : c.current.kind ≠ .symbol close := by
      intro hk
      obtain ⟨⟨k', v⟩, xs, hx, hbx⟩ := he.begins
      obtain ⟨hk', -⟩ := current_of_view (hts.trans hx)
      rw [← hk', hk] at hbx
      exact hbegin v hbx
    obtain ⟨a, c₁, ha, rfl, hv₁, hn₁⟩ := hp hc hl (hts ▸ he) (hes.stops_item hcomma hclose)
    have hle := (hts ▸ he).suffix.length_le
    rw [← hv₁] at hes hle
    obtain ⟨as, d, w, has, rfl, hd, hdn⟩ :=
      moreItems_complete hp hcomma hclose hne bound hn₁ (by omega) (by omega) hes
    obtain ⟨hk', -, hv₂, hn₂⟩ := at_symbol hdn hd
    refine ⟨a :: as, d.next, ?_, rfl, hv₂, hn₂⟩
    simp only [items, isAtSymbol_bind, hk, decide_false, Bool.false_eq_true, if_false]
    rw [bind_of_ok ha, bind_of_ok has, discard_expectSymbol_bind, if_pos hk']
    rfl

theorem stops_items (k : Category) (close : String) (us : List Lexeme) :
    Stops (.items k close) us := by
  match us with
  | [] => trivial
  | (.symbol s, _) :: _ => simp [Stops, continuing]
  | (.ident, s) :: _ => simp [Stops]
  | (.number, _) :: _ => trivial
  | (.string, _) :: _ => trivial
  | (.eof, _) :: _ => trivial

/-- A word that is a name is read as one, with or without arguments. -/
theorem word_of_name {expression : Parse Node} {bound : Nat} {c : Cursor}
    (hk : c.current.kind = .ident) (hs : IsName c.current.value) :
    word expression bound c =
      (if decide (c.next.current.kind = .symbol "(") = true then do
        advance
        let args ← items bound expression ")"
        return .call (.text c.current.value) (.list args)
      else return .identifier (.text c.current.value) : Parse Node) c.next := by
  have h₁ : ¬ (c.current.value = "true" ∨ c.current.value = "false") := by
    rintro (h | h) <;> exact hs (by rw [h]; decide)
  have h₂ : c.current.value ≠ "null" := fun h => hs (by rw [h]; decide)
  simp only [word, peek_bind, if_neg h₁, if_neg h₂, name_bind, if_pos hk]
  rw [if_neg hs, isAtSymbol_bind]

theorem primary_of_ident {expression : Parse Node} {bound : Nat} {c : Cursor}
    (hk : c.current.kind = .ident) : primary expression bound c = word expression bound c := by
  simp only [primary, peek_bind, hk]

variable {expression : Parse Node} {m bound : Nat} (he : Complete expression id .assignment m)
  (hb : m + 1 ≤ bound)

include he hb

theorem arguments_complete {close : String} (hclose : close = ")" ∨ close = "]") :
    Complete (items bound expression close) .list (.items .assignment close) m := by
  have h := items_complete he close (by decide)
    (by rcases hclose with rfl | rfl <;> decide) (by rcases hclose with rfl | rfl <;> decide)
    (by
      rintro v (h | ⟨s, hs, hk⟩)
      · rcases hclose with rfl | rfl <;> simp [BeginsOperand] at h
      · obtain rfl : close = s := by simpa using hk
        rcases hclose with rfl | rfl <;> exact absurd hs (by decide))
    (Nat.le_of_succ_le hb)
  simpa using h

theorem primary_complete : Complete (primary expression bound) id .primary (m + 1) := by
  intro c e us hc hl h hstop
  generalize hts : c.view = ts at h
  have hlen : ts.length ≤ m + 1 := hts ▸ hl
  cases h with
  | loosen hl | binary hl => cases hl
  | number s us =>
    obtain ⟨hk, rfl, hv, hn⟩ := at_lexeme hc hts (by simp)
    exact ⟨_, c.next, by rw [primary, peek_bind, hk]; rfl, rfl, hv, hn⟩
  | string s us =>
    obtain ⟨hk, rfl, hv, hn⟩ := at_lexeme hc hts (by simp)
    exact ⟨_, c.next, by rw [primary, peek_bind, hk]; rfl, rfl, hv, hn⟩
  | isTrue us =>
    obtain ⟨hk, hw, hv, hn⟩ := at_ident hc hts
    refine ⟨_, c.next, ?_, rfl, hv, hn⟩
    simp only [primary, peek_bind, hk, word, hw, true_or, if_true, advance_bind]
    rfl
  | isFalse us =>
    obtain ⟨hk, hw, hv, hn⟩ := at_ident hc hts
    refine ⟨_, c.next, ?_, rfl, hv, hn⟩
    simp only [primary, peek_bind, hk, word, hw, or_true, if_true, advance_bind]
    rfl
  | null us =>
    obtain ⟨hk, hw, hv, hn⟩ := at_ident hc hts
    refine ⟨_, c.next, ?_, rfl, hv, hn⟩
    simp only [primary, peek_bind, hk, word, hw, String.reduceEq, or_false, if_false, if_true,
      advance_bind]
    rfl
  | identifier us hs =>
    obtain ⟨hk, hw, hv, hn⟩ := at_ident hc hts
    refine ⟨_, c.next, ?_, rfl, hv, hn⟩
    rw [primary_of_ident hk]
    have hp : c.next.current.kind ≠ .symbol "(" := kind_ne_of_stops (hv ▸ hstop) (by decide)
    rw [← hw] at hs ⊢
    rw [word_of_name hk hs]
    simp [hp]
  | call v hs hargs =>
    obtain ⟨hk, hw, hv, hn⟩ := at_ident hc hts
    obtain ⟨hk', -, hv', hn'⟩ := at_symbol hn hv
    simp only [List.length_cons] at hlen
    obtain ⟨args, d, ha, rfl, hd, hdn⟩ :=
      arguments_complete he hb (.inl rfl) hn' (by rw [hv']; omega) (hv' ▸ hargs) (stops_items _ _ _)
    refine ⟨_, d, ?_, rfl, hd, hdn⟩
    rw [primary_of_ident hk]
    rw [← hw] at hs ⊢
    rw [word_of_name hk hs]
    simp only [hk', decide_true, if_true, advance_bind]
    rw [bind_of_ok ha]
    rfl
  | paren v w h =>
    obtain ⟨hk, -, hv, hn⟩ := at_symbol hc hts
    simp only [List.length_cons] at hlen
    obtain ⟨e', d, ha, rfl, hd, hdn⟩ :=
      he hn (by rw [hv]; omega) (hv ▸ h) (by simp [Stops, continuing])
    obtain ⟨hk', -, hv', hn'⟩ := at_symbol hdn hd
    refine ⟨_, d.next, ?_, rfl, hv', hn'⟩
    simp only [primary, peek_bind, hk, if_true, advance_bind]
    rw [bind_of_ok ha, discard_expectSymbol_bind, if_pos hk']
    rfl
  | array v h =>
    obtain ⟨hk, -, hv, hn⟩ := at_symbol hc hts
    simp only [List.length_cons] at hlen
    obtain ⟨es, d, ha, rfl, hd, hdn⟩ :=
      arguments_complete he hb (.inr rfl) hn (by rw [hv]; omega) (hv ▸ h) (stops_items _ _ _)
    refine ⟨_, d, ?_, rfl, hd, hdn⟩
    simp only [primary, peek_bind, hk, String.reduceEq, if_false, if_true, advance_bind]
    rw [bind_of_ok ha]
    rfl

/-- Follows a phrase with indices from its first operand on. -/
theorem indexed_reach {ts us : List Lexeme} {e : Node} (h : Derives .indexed ts e us)
    {c : Cursor} (hc : c.HasEnd) (hv : c.view = ts) (hl : ts.length ≤ m + 1)
    (hstop : Stops .primary us) :
    ∃ first c₁ c₂ k, primary expression bound c = .ok (first, c₁) ∧ c₂.view = us ∧ c₂.HasEnd ∧
      k + us.length < ts.length ∧
      ∀ n, indices expression (n + k) first c₁ = indices expression n e c₂ := by
  generalize hi : Category.indexed = i at h
  induction h generalizing c with
  | loosen hd h =>
    subst hi
    cases hd
    obtain ⟨first, d, hp, rfl, hd, hdn⟩ :=
      primary_complete he hb hc (hv ▸ hl) (hv ▸ h) hstop
    refine ⟨first, d, d, 0, hp, hd, hdn, ?_, fun n => rfl⟩
    simpa using h.length_lt (by simp)
  | index v w hx hj ih =>
    obtain ⟨first, c₁, c₂, k, hp, hv₂, hn₂, hlt, hr⟩ :=
      ih hc hv hl (by simp [Stops, continuing]) hi
    obtain ⟨hk, -, hv₃, hn₃⟩ := at_symbol hn₂ hv₂
    simp only [List.length_cons] at hlt
    obtain ⟨j, c₄, hj', rfl, hv₄, hn₄⟩ := he hn₃ (by rw [hv₃]; omega) (hv₃ ▸ hj)
      (by simp [Stops, continuing])
    obtain ⟨hk', -, hv₅, hn₅⟩ := at_symbol hn₄ hv₄
    have hle := hj.suffix.length_le
    simp only [List.length_cons] at hle
    refine ⟨first, c₁, c₄.next, k + 1, hp, hv₅, hn₅, by omega, fun n => ?_⟩
    rw [show n + (k + 1) = n + 1 + k by omega, hr]
    simp only [indices, isAtSymbol_bind, hk, decide_true, if_true, advance_bind]
    rw [bind_of_ok hj', discard_expectSymbol_bind, if_pos hk']
    rfl
  | binary hd hs =>
    subst hi
    cases hs
  | _ => cases hi

theorem indexed_complete {e : Node} {us : List Lexeme} {c : Cursor} (hc : c.HasEnd)
    (hl : c.view.length ≤ m + 1) (h : Derives .indexed c.view e us) (hstop : Stops .indexed us) :
    ∃ first c₁ d, primary expression bound c = .ok (first, c₁) ∧
      indices expression bound first c₁ = .ok (e, d) ∧ d.view = us ∧ d.HasEnd := by
  obtain ⟨first, c₁, d, k, hp, hv, hn, hlt, hr⟩ :=
    indexed_reach he hb h hc rfl hl (hstop.tighter rfl)
  obtain ⟨n, hn'⟩ : ∃ n, bound = n + 1 + k := ⟨bound - k - 1, by omega⟩
  refine ⟨first, c₁, d, hp, ?_, hv, hn⟩
  have hk : d.current.kind ≠ .symbol "[" := kind_ne_of_stops (hv ▸ hstop) (by decide)
  rw [hn', hr]
  simp [indices, hk]

omit he hb in
/-- An operand without a prefix operator is not taken for one with it. -/
theorem not_isAtAny_of_begins {c : Cursor} {x : Lexeme} {xs : List Lexeme} (hv : c.view = x :: xs)
    (hx : BeginsOperand x) {ss : List String} (hs : ss = negations ∨ ss = steps) :
    (ss.any fun s => decide (c.current.kind = .symbol s)) = false := by
  obtain ⟨k, v⟩ := x
  obtain ⟨rfl, -⟩ := current_of_view hv
  simp only [List.any_eq_false, decide_eq_true_eq]
  intro s hm hk
  rw [hk] at hx
  rcases hs with rfl | rfl <;> rcases hx with rfl | rfl <;> exact absurd hm (by decide)

omit he hb in
theorem steps_stop {s v : String} {us : List Lexeme} (hs : s ∈ steps) :
    Stops .indexed ((.symbol s, v) :: us) := by
  simp only [steps, List.mem_cons, List.not_mem_nil, or_false] at hs
  rcases hs with rfl | rfl <;> simp [Stops, continuing]

theorem unary_complete (n : Nat) {c : Cursor} {e : Node} {us : List Lexeme} (hc : c.HasEnd)
    (hn : c.view.length ≤ n) (hl : c.view.length ≤ m + 1) (h : Derives .unary c.view e us)
    (hstop : Stops .unary us) : Reads (unary expression bound n) id c e us := by
  induction n generalizing c e with
  | zero =>
    have := view_length_pos c
    omega
  | succ n ih =>
    generalize hts : c.view = ts at h
    cases h with
    | loosen hd h =>
      cases hd
      subst hts
      obtain ⟨x, xs, hx, hbegin⟩ := h.begins
      obtain ⟨first, c₁, d, hp, hi, hv, hdn⟩ := indexed_complete he hb hc hl h (hstop.tighter rfl)
      refine ⟨e, d, ?_, rfl, hv, hdn⟩
      have h₁ := not_isAtAny_of_begins hx hbegin (.inl rfl)
      have h₂ := not_isAtAny_of_begins hx hbegin (.inr rfl)
      have h₃ := not_isAtAny_of_stops steps (hv ▸ hstop) (by decide)
      simp only [negations, steps] at h₁ h₂ h₃
      rw [unary, isAtAny_bind, h₁, if_neg Bool.false_ne_true, isAtAny_bind, h₂,
        if_neg Bool.false_ne_true, bind_of_ok hp, bind_of_ok hi, isAtAny_bind, h₃]
      rfl
    | negation v hs h =>
      obtain ⟨hk, rfl, hv, hnn⟩ := at_symbol hc hts
      have hlen : c.view.length = c.next.view.length + 1 := by rw [hts, hv, List.length_cons]
      obtain ⟨e', d, ha, rfl, hd, hdn⟩ := ih hnn (by omega) (by omega) (hv ▸ h)
      refine ⟨_, d, ?_, rfl, hd, hdn⟩
      have h₁ := isAtAny_of_mem hs hk
      simp only [negations] at h₁
      rw [unary, isAtAny_bind, h₁, if_pos rfl, take_bind, bind_of_ok ha]
      rfl
    | stepBefore v hs h =>
      obtain ⟨hk, rfl, hv, hnn⟩ := at_symbol hc hts
      have hlen : c.view.length = c.next.view.length + 1 := by rw [hts, hv, List.length_cons]
      obtain ⟨e', d, ha, hx, hd, hdn⟩ := ih hnn (by omega) (by omega) (hv ▸ h)
      obtain rfl : e' = _ := hx
      refine ⟨_, d, ?_, rfl, hd, hdn⟩
      have h₂ := isAtAny_of_mem hs hk
      have h₁ : (negations.any fun s => decide (c.current.kind = .symbol s)) = false := by
        rw [hk]
        simp only [steps, List.mem_cons, List.not_mem_nil, or_false] at hs
        rcases hs with rfl | rfl <;> decide
      simp only [negations, steps] at h₁ h₂
      rw [unary, isAtAny_bind, h₁, if_neg Bool.false_ne_true, isAtAny_bind, h₂, if_pos rfl,
        take_bind, bind_of_ok ha]
      rfl
    | stepAfter hs h =>
      subst hts
      obtain ⟨x, xs, hx, hbegin⟩ := h.begins
      obtain ⟨first, c₁, d, hp, hi, hv, hdn⟩ := indexed_complete he hb hc hl h (steps_stop hs)
      obtain ⟨hk, rfl, hv', hn'⟩ := at_symbol hdn hv
      refine ⟨_, d.next, ?_, rfl, hv', hn'⟩
      have h₁ := not_isAtAny_of_begins hx hbegin (.inl rfl)
      have h₂ := not_isAtAny_of_begins hx hbegin (.inr rfl)
      have h₃ := isAtAny_of_mem hs hk
      simp only [negations, steps] at h₁ h₂ h₃
      rw [unary, isAtAny_bind, h₁, if_neg Bool.false_ne_true, isAtAny_bind, h₂,
        if_neg Bool.false_ne_true, bind_of_ok hp, bind_of_ok hi, isAtAny_bind, h₃, if_pos rfl,
        take_bind]
      rfl
    | binary hd hs => cases hs

omit he hb in
/-- Follows a phrase of a binary level from its first operand on. -/
theorem level_reach {l l' : Category} {operand : Parse Node} {limit : Nat}
    (ht : l.tighter? = some l') (hops : l.operators ≠ []) (ho : Complete operand id l' limit)
    {ts us : List Lexeme} {e : Node} (h : Derives l ts e us) {c : Cursor} (hc : c.HasEnd)
    (hv : c.view = ts) (hl : ts.length ≤ limit) (hstop : Stops l' us) :
    ∃ first c₁ c₂ k, operand c = .ok (first, c₁) ∧ c₂.view = us ∧ c₂.HasEnd ∧
      k + us.length < ts.length ∧
      ∀ n, chain operand l.operators (n + k) first c₁ = chain operand l.operators n e c₂ := by
  induction h generalizing c with
  | loosen hd h =>
    cases ht.symm.trans hd
    obtain ⟨first, d, hp, rfl, hd', hdn⟩ := ho hc (hv ▸ hl) (hv ▸ h) hstop
    refine ⟨first, d, d, 0, hp, hd', hdn, ?_, fun n => rfl⟩
    simpa using h.length_lt (tighter?_ne_program hd)
  | binary hd hs ha hb ih =>
    cases ht.symm.trans hd
    obtain ⟨first, c₁, c₂, k, hp, hv₂, hn₂, hlt, hr⟩ :=
      ih ht hops hc hv hl (operators_stop hd hs)
    obtain ⟨hk, rfl, hv₃, hn₃⟩ := at_symbol hn₂ hv₂
    simp only [List.length_cons] at hlt
    obtain ⟨b, d, hb', rfl, hd', hdn⟩ := ho hn₃ (by rw [hv₃]; omega) (hv₃ ▸ hb) hstop
    have hle := hb.suffix.length_le
    refine ⟨first, c₁, d, k + 1, hp, hd', hdn, by omega, fun n => ?_⟩
    rw [show n + (k + 1) = n + 1 + k by omega, hr, chain, isAtAny_bind, isAtAny_of_mem hs hk,
      if_pos rfl, take_bind, bind_of_ok hb']
    rfl
  | _ => exact absurd rfl hops

omit he hb in
theorem level_complete {l l' : Category} {operand : Parse Node} {limit : Nat}
    (ht : l.tighter? = some l') (hops : l.operators ≠ []) (ho : Complete operand id l' limit)
    (hlimit : limit ≤ bound) : Complete (level bound l.operators operand) id l limit := by
  intro c e us hc hl h hstop
  obtain ⟨first, c₁, d, k, hp, hv, hn, hlt, hr⟩ :=
    level_reach ht hops ho h hc rfl hl (hstop.tighter ht)
  obtain ⟨n, hn'⟩ : ∃ n, bound = n + 1 + k := ⟨bound - k - 1, by omega⟩
  refine ⟨e, d, ?_, rfl, hv, hn⟩
  rw [level, bind_of_ok hp, hn', hr, chain, isAtAny_bind,
    not_isAtAny_of_stops _ (hv ▸ hstop) (operators_subset_continuing l)]
  rfl

theorem logical_complete : Complete (logical expression bound) id .logical (m + 1) := by
  have h₀ : Complete (unary expression bound bound) id .unary (m + 1) :=
    fun c e us hc hl h hstop => unary_complete he hb bound hc (by omega) hl h hstop
  have h₁ : Complete (multiplicative expression bound) id .multiplicative (m + 1) :=
    level_complete (l := .multiplicative) rfl (by decide) h₀ hb
  have h₂ : Complete (additive expression bound) id .additive (m + 1) :=
    level_complete (l := .additive) rfl (by decide) h₁ hb
  have h₃ : Complete (comparison expression bound) id .comparison (m + 1) :=
    level_complete (l := .comparison) rfl (by decide) h₂ hb
  exact level_complete (l := .logical) rfl (by decide) h₃ hb

omit he hb in
theorem assignments_stop {s v : String} {f : Option String} {us : List Lexeme}
    (hs : (s, f) ∈ assignments) : Stops .logical ((.symbol s, v) :: us) := by
  have h : ∀ a ∈ assignments, a.1 ∉ continuing .logical := by decide
  exact h _ hs

omit he hb in
theorem find_assignment {c : Cursor} {s : String} {f : Option String} (hs : (s, f) ∈ assignments)
    (hk : c.current.kind = .symbol s) :
    (assignments.find? fun a => decide (c.current.kind = .symbol a.1)) = some (s, f) := by
  have h : ∀ a ∈ assignments,
      (assignments.find? fun b => decide (Token.Kind.symbol a.1 = .symbol b.1)) = some a := by
    decide
  rw [hk]
  exact h _ hs

omit he hb in
theorem no_assignment {c : Cursor} (hstop : Stops .assignment c.view) :
    (assignments.find? fun a => decide (c.current.kind = .symbol a.1)) = none := by
  have h : ∀ a ∈ assignments, a.1 ∈ continuing .assignment := by decide
  simp only [List.find?_eq_none, decide_eq_true_eq]
  exact fun a ha => kind_ne_of_stops hstop (h a ha)

theorem assignment_complete (n : Nat) {c : Cursor} {e : Node} {us : List Lexeme} (hc : c.HasEnd)
    (hn : c.view.length ≤ n) (hl : c.view.length ≤ m + 1) (h : Derives .assignment c.view e us)
    (hstop : Stops .assignment us) : Reads (assignment expression bound n) id c e us := by
  induction n generalizing c e with
  | zero =>
    have := view_length_pos c
    omega
  | succ n ih =>
    generalize hts : c.view = ts at h
    cases h with
    | loosen hd h =>
      cases hd
      obtain ⟨e', d, ha, rfl, hv, hdn⟩ := logical_complete he hb hc hl (hts ▸ h) (hstop.tighter rfl)
      refine ⟨e', d, ?_, rfl, hv, hdn⟩
      rw [assignment, bind_of_ok ha, peek_bind, no_assignment (hv ▸ hstop)]
      rfl
    | assign hs hx hv =>
      obtain ⟨e', c₁, ha, hx', hv₁, hn₁⟩ :=
        logical_complete he hb hc hl (hts ▸ hx) (assignments_stop hs)
      obtain rfl : e' = _ := hx'
      obtain ⟨hk, -, hv₂, hn₂⟩ := at_symbol hn₁ hv₁
      have hlt := hx.length_lt (by simp)
      simp only [List.length_cons, ← hts, ← hv₂] at hlt
      obtain ⟨v, d, hb', rfl, hd, hdn⟩ := ih hn₂ (by omega) (by omega) (hv₂ ▸ hv)
      refine ⟨_, d, ?_, rfl, hd, hdn⟩
      rw [assignment, bind_of_ok ha, peek_bind, find_assignment hs hk]
      dsimp only
      rw [advance_bind, bind_of_ok hb']
      rfl
    | binary hd hs => cases hs

omit he hb in
theorem expression_complete (n : Nat) : Complete (Parse.expression (n + 1)) id .assignment n := by
  induction n with
  | zero =>
    intro c e us hc hl
    have := view_length_pos c
    omega
  | succ n ih =>
    intro c e us hc hl h hstop
    exact assignment_complete ih (Nat.le_refl _) (n + 1) hc hl hl h hstop

end Expressions

section Statements

variable {expression statement : Parse Node} {m bound : Nat}
  (he : Complete expression id .assignment (m + 1)) (hs : Complete statement id .statement m)
  (hb : m + 1 ≤ bound)

theorem endOfExpression_of_ends {c : Cursor} {us : List Lexeme} (hc : c.HasEnd)
    (h : Ends c.view us) : ∃ d, endOfExpression c = .ok ((), d) ∧ d.view = us ∧ d.HasEnd := by
  generalize hts : c.view = ts at h
  cases h with
  | semicolon v us =>
    obtain ⟨hk, -, hv, hn⟩ := at_symbol hc hts
    exact ⟨c.next, by simp [endOfExpression, hk], hv, hn⟩
  | brace v us =>
    obtain ⟨hk, -, -, -⟩ := at_symbol hc hts
    exact ⟨c, by simp [endOfExpression, hk], hts, hc⟩
  | eof v us =>
    obtain ⟨hk, -⟩ := current_of_view hts
    exact ⟨c, by simp [endOfExpression, hk], hts, hc⟩

theorem stops_of_ends {us vs : List Lexeme} (h : Ends us vs) : Stops .assignment us := by
  cases h with
  | semicolon | brace => simp [Stops, continuing]
  | eof => trivial

/-- Behind a block or a declaration anything may stand. -/
theorem stops_of_nil {k : Category} (hk : continuing k = []) (hs : k ≠ .statement)
    (us : List Lexeme) : Stops k us := by
  match us with
  | [] => trivial
  | (.symbol s, _) :: _ => simp [Stops, hk]
  | (.ident, s) :: _ => simp [Stops, hs]
  | (.number, _) :: _ => trivial
  | (.string, _) :: _ => trivial
  | (.eof, _) :: _ => trivial

include he in
theorem varDecl_complete : Complete (varDecl expression) id .declaration (m + 1) := by
  intro c e us hc hl h _
  generalize hts : c.view = ts at h
  have hlen : ts.length ≤ m + 1 := hts ▸ hl
  cases h with
  | loosen hl | binary hl => cases hl
  | uninitialized v us hname =>
    obtain ⟨hk, hw, hv, hn⟩ := at_ident hc hts
    obtain ⟨hk', rfl, hv', hn'⟩ := at_ident hn hv
    obtain ⟨hk₂, -, hv₂, hn₂⟩ := at_symbol hn' hv'
    refine ⟨_, c.next.next.next, ?_, rfl, hv₂, hn₂⟩
    simp only [varDecl, expect_bind, hk, if_true, name_bind, hk', if_neg hname, isAtSymbol_bind,
      hk₂, hw, decide_false, Bool.false_eq_true, if_false, Token.Kind.symbol.injEq,
      String.reduceEq, pure_bind, discard_expectSymbol_bind]
    rfl
  | initialized v w hkw hname h =>
    obtain ⟨hk, rfl, hv, hn⟩ := at_ident hc hts
    obtain ⟨hk', rfl, hv', hn'⟩ := at_ident hn hv
    obtain ⟨hk₂, -, hv₂, hn₂⟩ := at_symbol hn' hv'
    simp only [List.length_cons] at hlen
    obtain ⟨e', d, ha, rfl, hd, hdn⟩ := he hn₂ (by rw [hv₂]; omega) (hv₂ ▸ h)
      (by simp [Stops, continuing])
    obtain ⟨hk₃, -, hv₃, hn₃⟩ := at_symbol hdn hd
    refine ⟨_, d.next, ?_, rfl, hv₃, hn₃⟩
    simp only [varDecl, expect_bind, hk, if_true, name_bind, hk', if_neg hname, isAtSymbol_bind,
      hk₂, decide_true, advance_bind]
    rw [bind_of_ok ha, discard_expectSymbol_bind, if_pos hk₃]
    rfl

include hs in
theorem blockRest_complete (n : Nat) {c : Cursor} {e : Node} {us : List Lexeme} (hc : c.HasEnd)
    (hn : c.view.length ≤ n) (hl : c.view.length ≤ m) (h : Derives .body c.view e us) :
    Reads (blockRest statement n) .list c e us := by
  induction n generalizing c e with
  | zero =>
    have := view_length_pos c
    omega
  | succ n ih =>
    generalize hts : c.view = ts at h
    cases h with
    | loosen hl | binary hl => cases hl
    | bodyEnd v us =>
      obtain ⟨hk, -, hv, hnn⟩ := at_symbol hc hts
      refine ⟨[], c.next, ?_, rfl, hv, hnn⟩
      simp only [blockRest, isAtSymbol_bind, hk, decide_true, if_true, advance_bind, pure_apply]
    | bodyMore h hes =>
      obtain ⟨⟨k, v⟩, xs, hx, hbegin⟩ := h.begins
      obtain ⟨hk, -⟩ := current_of_view (hts.trans hx)
      obtain ⟨hk₁, hk₂, -⟩ := hbegin
      obtain ⟨e', c₁, ha, rfl, hv₁, hn₁⟩ := hs hc hl (hts ▸ h) (hes.stops_statement (.inl rfl))
      have hlt := (hts ▸ h).length_lt (by simp)
      rw [← hv₁] at hes hlt
      obtain ⟨es, d, has, hes', hd, hdn⟩ := ih hn₁ (by omega) (by omega) hes
      obtain rfl := Node.list.inj hes'
      refine ⟨e' :: es, d, ?_, rfl, hd, hdn⟩
      rw [← hk] at hk₁ hk₂
      simp only [blockRest, isAtSymbol_bind, hk₂, decide_false, Bool.false_eq_true, if_false,
        isAt_bind, hk₁]
      rw [bind_of_ok ha, bind_of_ok has]
      rfl

include hs hb

theorem block_complete : Complete (block statement bound) id .block (m + 1) := by
  intro c e us hc hl h _
  generalize hts : c.view = ts at h
  have hlen : ts.length ≤ m + 1 := hts ▸ hl
  cases h with
  | loosen hl | binary hl => cases hl
  | block v h =>
    obtain ⟨hk, -, hv, hn⟩ := at_symbol hc hts
    simp only [List.length_cons, ← hv] at hlen
    obtain ⟨es, d, ha, rfl, hd, hdn⟩ :=
      blockRest_complete hs bound hn (by omega) (by omega) (hv ▸ h)
    refine ⟨_, d, ?_, rfl, hd, hdn⟩
    rw [block, discard_expectSymbol_bind, if_pos hk, bind_of_ok ha]
    rfl

/-- A block behind a phrase that has taken something. -/
theorem block_reads {c : Cursor} {e : Node} {ts us : List Lexeme} (hc : c.HasEnd)
    (hv : c.view = ts) (hl : ts.length ≤ m + 1) (h : Derives .block ts e us) :
    ∃ d, block statement bound c = .ok (e, d) ∧ d.view = us ∧ d.HasEnd := by
  subst hv
  obtain ⟨e', d, ha, rfl, hd, hdn⟩ :=
    block_complete hs hb hc hl h (stops_of_nil rfl (by simp) us)
  exact ⟨d, ha, hd, hdn⟩

omit hs hb

include he in
/-- An expression that ends at a closing symbol. -/
theorem expression_reads {c : Cursor} {e : Node} {ts us : List Lexeme} (hc : c.HasEnd)
    (hv : c.view = ts) (hl : ts.length ≤ m + 1) (h : Derives .assignment ts e us)
    (hstop : Stops .assignment us) :
    ∃ d, expression c = .ok (e, d) ∧ d.view = us ∧ d.HasEnd := by
  subst hv
  obtain ⟨e', d, ha, rfl, hd, hdn⟩ := he hc hl h hstop
  exact ⟨d, ha, hd, hdn⟩

include he in
theorem condition_reads {c : Cursor} {e : Node} {v w : String} {ts us : List Lexeme}
    (hc : c.HasEnd) (hv : c.view = (.symbol "(", v) :: ts) (hl : ts.length ≤ m + 1)
    (h : Derives .assignment ts e ((.symbol ")", w) :: us)) :
    ∃ d, condition expression c = .ok (e, d) ∧ d.view = us ∧ d.HasEnd := by
  obtain ⟨hk, -, hv', hn⟩ := at_symbol hc hv
  obtain ⟨d, ha, hd, hdn⟩ := expression_reads he hn hv' hl h (by simp [Stops, continuing])
  obtain ⟨hk', -, hv'', hn'⟩ := at_symbol hdn hd
  refine ⟨d.next, ?_, hv'', hn'⟩
  rw [condition, discard_expectSymbol_bind, if_pos hk, bind_of_ok ha, discard_expectSymbol_bind,
    if_pos hk']
  rfl

include hs hb in
theorem funcDecl_reads {c : Cursor} {s v : String} {ps b : Node} {ts us vs : List Lexeme}
    (hc : c.HasEnd)
    (hv : c.view = (.ident, "function") :: (.ident, s) :: (.symbol "(", v) :: ts)
    (hl : ts.length ≤ m) (hname : IsName s) (hp : Derives (.items .name ")") ts ps us)
    (hbody : Derives .block us b vs) :
    Reads (funcDecl statement bound) id c (.funcDecl (.text s) ps b) vs := by
  obtain ⟨hk, hw, hv₁, hn₁⟩ := at_ident hc hv
  obtain ⟨hk₁, rfl, hv₂, hn₂⟩ := at_ident hn₁ hv₁
  obtain ⟨hk₂, -, hv₃, hn₃⟩ := at_symbol hn₂ hv₂
  have hle := hp.suffix.length_le
  obtain ⟨as, c₁, ha, rfl, hv₄, hn₄⟩ := items_complete (name_complete m) ")" (by decide) (by decide)
    (by decide) (by simp [Begins]) (Nat.le_of_succ_le hb) hn₃ (hv₃ ▸ hl) (hv₃ ▸ hp)
    (stops_items _ _ _)
  obtain ⟨d, hb', hd, hdn⟩ := block_reads hs hb hn₄ hv₄ (by omega) hbody
  refine ⟨_, d, ?_, rfl, hd, hdn⟩
  rw [funcDecl, discard_expectWord_bind, if_pos ⟨hk, hw⟩, name_bind, if_pos hk₁, if_neg hname,
    discard_expectSymbol_bind, if_pos hk₂, bind_of_ok ha, bind_of_ok hb']
  rfl

include he hs hb in
theorem ifThen_reads {c : Cursor} {v w : String} {e a : Node} {ts us vs : List Lexeme}
    (hc : c.HasEnd) (hv : c.view = (.ident, "if") :: (.symbol "(", v) :: ts)
    (hl : ts.length ≤ m) (hcond : Derives .assignment ts e ((.symbol ")", w) :: us))
    (ha : Derives .block us a vs) (hstop : Stops .statement vs) :
    Reads (ifStmt expression statement bound) id c (.ifStmt e a .null) vs := by
  obtain ⟨hk, hw, hv₁, hn₁⟩ := at_ident hc hv
  have hle := hcond.suffix.length_le
  simp only [List.length_cons] at hle
  obtain ⟨c₁, h₁, hv₂, hn₂⟩ := condition_reads he hn₁ hv₁ (by omega) hcond
  obtain ⟨d, h₂, hd, hdn⟩ := block_reads hs hb hn₂ hv₂ (by omega) ha
  have helse : (decide (d.current.kind = .ident) && decide (d.current.value = "else")) = false := by
    by_contra hcon
    simp only [Bool.not_eq_false, Bool.and_eq_true, decide_eq_true_eq] at hcon
    rw [← hd] at hstop
    have hnot : d.current.kind ≠ .eof := by simp [hcon.1]
    rw [(view_cons hdn hnot).1, hcon.1] at hstop
    exact hstop rfl hcon.2
  refine ⟨_, d, ?_, rfl, hd, hdn⟩
  rw [ifStmt, discard_expectWord_bind, if_pos ⟨hk, hw⟩, bind_of_ok h₁, bind_of_ok h₂,
    isAtWord_bind, helse]
  rfl

include he hs hb in
theorem ifElse_reads {c : Cursor} {v w : String} {e a b : Node} {ts us vs ws : List Lexeme}
    (hc : c.HasEnd) (hv : c.view = (.ident, "if") :: (.symbol "(", v) :: ts)
    (hl : ts.length ≤ m) (hcond : Derives .assignment ts e ((.symbol ")", w) :: us))
    (ha : Derives .block us a ((.ident, "else") :: vs)) (hbody : Derives .block vs b ws) :
    Reads (ifStmt expression statement bound) id c (.ifStmt e a b) ws := by
  obtain ⟨hk, hw, hv₁, hn₁⟩ := at_ident hc hv
  have hle := hcond.suffix.length_le
  have hle' := ha.suffix.length_le
  simp only [List.length_cons] at hle hle'
  obtain ⟨c₁, h₁, hv₂, hn₂⟩ := condition_reads he hn₁ hv₁ (by omega) hcond
  obtain ⟨c₂, h₂, hv₃, hn₃⟩ := block_reads hs hb hn₂ hv₂ (by omega) ha
  obtain ⟨hk₃, hw₃, hv₄, hn₄⟩ := at_ident hn₃ hv₃
  obtain ⟨d, h₃, hd, hdn⟩ := block_reads hs hb hn₄ hv₄ (by omega) hbody
  refine ⟨_, d, ?_, rfl, hd, hdn⟩
  rw [ifStmt, discard_expectWord_bind, if_pos ⟨hk, hw⟩, bind_of_ok h₁, bind_of_ok h₂,
    isAtWord_bind, hk₃, hw₃]
  simp only [decide_true, Bool.and_self, if_true, advance_bind]
  rw [bind_of_ok h₃]
  rfl

include he hs hb in
theorem while_reads {c : Cursor} {v w : String} {e b : Node} {ts us vs : List Lexeme}
    (hc : c.HasEnd) (hv : c.view = (.ident, "while") :: (.symbol "(", v) :: ts)
    (hl : ts.length ≤ m) (hcond : Derives .assignment ts e ((.symbol ")", w) :: us))
    (hbody : Derives .block us b vs) :
    Reads (whileStmt expression statement bound) id c (.whileStmt e b) vs := by
  obtain ⟨hk, hw, hv₁, hn₁⟩ := at_ident hc hv
  have hle := hcond.suffix.length_le
  simp only [List.length_cons] at hle
  obtain ⟨c₁, h₁, hv₂, hn₂⟩ := condition_reads he hn₁ hv₁ (by omega) hcond
  obtain ⟨d, h₂, hd, hdn⟩ := block_reads hs hb hn₂ hv₂ (by omega) hbody
  refine ⟨_, d, ?_, rfl, hd, hdn⟩
  rw [whileStmt, discard_expectWord_bind, if_pos ⟨hk, hw⟩, bind_of_ok h₁, bind_of_ok h₂]
  rfl

include he in
/-- The first part of a `for` statement: a declaration, or an expression with its semicolon. -/
theorem forInit_reads {c : Cursor} {i : Node} {ts us : List Lexeme} (hc : c.HasEnd)
    (hv : c.view = ts) (hl : ts.length ≤ m)
    (h : Derives .declaration ts i us ∨ ∃ w, Derives .assignment ts i ((.symbol ";", w) :: us)) :
    ∃ d, forInit expression c = .ok (i, d) ∧ d.view = us ∧ d.HasEnd := by
  subst hv
  rcases h with h | ⟨w, h⟩
  · obtain ⟨x, xs, hx, hbegin⟩ := h.begins
    obtain ⟨e', d, ha, rfl, hd, hdn⟩ :=
      varDecl_complete he hc (by omega) h (stops_of_nil rfl (by simp) us)
    refine ⟨d, ?_, hd, hdn⟩
    rcases hbegin with rfl | rfl
    · obtain ⟨hk, hw⟩ := current_of_view hx
      rw [forInit, isAtWord_bind, isAtWord_bind, hk, hw]
      exact ha
    · obtain ⟨hk, hw⟩ := current_of_view hx
      rw [forInit, isAtWord_bind, isAtWord_bind, hk, hw]
      exact ha
  · obtain ⟨⟨k, s⟩, xs, hx, hbegin⟩ := h.begins
    obtain ⟨hk, hw⟩ := current_of_view hx
    obtain ⟨d, ha, hd, hdn⟩ := expression_reads he hc rfl (by omega) h (by simp [Stops, continuing])
    obtain ⟨hk', -, hv', hn'⟩ := at_symbol hdn hd
    refine ⟨d.next, ?_, hv', hn'⟩
    have hno : ¬ (c.current.kind = .ident ∧ c.current.value ∈ statementWords) := by
      rintro ⟨h₁, h₂⟩
      rw [← hk, h₁, ← hw] at hbegin
      rcases hbegin with hbegin | ⟨s, -, hs⟩
      · exact hbegin h₂
      · cases hs
    have h₁ : (decide (c.current.kind = .ident) && decide (c.current.value = "var")) = false := by
      simp only [Bool.and_eq_false_imp, decide_eq_true_eq, decide_eq_false_iff_not]
      exact fun h₁ h₂ => hno ⟨h₁, by rw [h₂]; decide⟩
    have h₂ : (decide (c.current.kind = .ident) && decide (c.current.value = "const")) = false := by
      simp only [Bool.and_eq_false_imp, decide_eq_true_eq, decide_eq_false_iff_not]
      exact fun h₁ h₂ => hno ⟨h₁, by rw [h₂]; decide⟩
    rw [forInit, isAtWord_bind, isAtWord_bind, h₁, h₂, Bool.or_self, if_neg Bool.false_ne_true,
      bind_of_ok ha, discard_expectSymbol_bind, if_pos hk']
    rfl

include he hs hb in
theorem for_reads {c : Cursor} {v w₁ w₂ : String} {i e n b : Node} {ts us vs ws xs : List Lexeme}
    (hc : c.HasEnd) (hv : c.view = (.ident, "for") :: (.symbol "(", v) :: ts)
    (hl : ts.length ≤ m)
    (hi : Derives .declaration ts i us ∨ ∃ w, Derives .assignment ts i ((.symbol ";", w) :: us))
    (hcond : Derives .assignment us e ((.symbol ";", w₁) :: vs))
    (hnext : Derives .assignment vs n ((.symbol ")", w₂) :: ws))
    (hbody : Derives .block ws b xs) :
    Reads (forStmt expression statement bound) id c (.forStmt i e n b) xs := by
  obtain ⟨hk, hw, hv₁, hn₁⟩ := at_ident hc hv
  obtain ⟨hk₁, -, hv₂, hn₂⟩ := at_symbol hn₁ hv₁
  have hle₁ : us.length ≤ ts.length := by
    rcases hi with hi | ⟨w, hi⟩
    · exact hi.suffix.length_le
    · exact Nat.le_of_succ_le hi.suffix.length_le
  have hle₂ := hcond.suffix.length_le
  have hle₃ := hnext.suffix.length_le
  simp only [List.length_cons] at hle₂ hle₃
  obtain ⟨c₁, h₁, hv₃, hn₃⟩ := forInit_reads he hn₂ hv₂ hl hi
  obtain ⟨c₂, h₂, hv₄, hn₄⟩ :=
    expression_reads he hn₃ hv₃ (by omega) hcond (by simp [Stops, continuing])
  obtain ⟨hk₄, -, hv₅, hn₅⟩ := at_symbol hn₄ hv₄
  obtain ⟨c₃, h₃, hv₆, hn₆⟩ :=
    expression_reads he hn₅ hv₅ (by omega) hnext (by simp [Stops, continuing])
  obtain ⟨hk₆, -, hv₇, hn₇⟩ := at_symbol hn₆ hv₆
  obtain ⟨d, h₄, hd, hdn⟩ := block_reads hs hb hn₇ hv₇ (by omega) hbody
  refine ⟨_, d, ?_, rfl, hd, hdn⟩
  rw [forStmt, discard_expectWord_bind, if_pos ⟨hk, hw⟩, discard_expectSymbol_bind, if_pos hk₁,
    bind_of_ok h₁, bind_of_ok h₂, discard_expectSymbol_bind, if_pos hk₄, bind_of_ok h₃,
    discard_expectSymbol_bind, if_pos hk₆, bind_of_ok h₄]
  rfl

include he in
theorem return_reads {c : Cursor} {v : String} {e : Node} {ts us : List Lexeme} (hc : c.HasEnd)
    (hv : c.view = (.ident, "return") :: ts) (hl : ts.length ≤ m)
    (h : Derives .assignment ts e ((.symbol ";", v) :: us)) :
    Reads (returnStmt expression) id c (.returnStmt e) us := by
  obtain ⟨hk, hw, hv₁, hn₁⟩ := at_ident hc hv
  obtain ⟨⟨k, s⟩, xs, hx, hbegin⟩ := h.begins
  obtain ⟨hk₁, -⟩ := current_of_view (hv₁.trans hx)
  have hno : c.next.current.kind ≠ .symbol ";" := by
    intro h
    rw [← hk₁, h] at hbegin
    rcases hbegin with hbegin | ⟨s, hs, h'⟩
    · simp [BeginsOperand] at hbegin
    · obtain rfl : ";" = s := by simpa using h'
      exact absurd hs (by decide)
  obtain ⟨d, ha, hd, hdn⟩ :=
    expression_reads he hn₁ hv₁ (by omega) h (by simp [Stops, continuing])
  obtain ⟨hk', -, hv', hn'⟩ := at_symbol hdn hd
  refine ⟨_, d.next, ?_, rfl, hv', hn'⟩
  rw [returnStmt, discard_expectWord_bind, if_pos ⟨hk, hw⟩, isAtSymbol_bind]
  simp only [hno, decide_false, Bool.false_eq_true, if_false]
  rw [bind_of_ok ha, discard_expectSymbol_bind, if_pos hk']
  rfl

include he in
theorem expressionStmt_reads {c : Cursor} {e : Node} {ts us vs : List Lexeme} (hc : c.HasEnd)
    (hv : c.view = ts) (hl : ts.length ≤ m + 1) (h : Derives .assignment ts e us)
    (hu : Ends us vs) : Reads (expressionStmt expression) id c e vs := by
  obtain ⟨c₁, h₁, hv₁, hn₁⟩ := expression_reads he hc hv hl h (stops_of_ends hu)
  obtain ⟨d, h₂, hd, hdn⟩ := endOfExpression_of_ends hn₁ (hv₁ ▸ hu)
  refine ⟨_, d, ?_, rfl, hd, hdn⟩
  rw [expressionStmt, bind_of_ok h₁, bind_of_ok h₂]
  rfl

/-- What begins an expression is sent to the rule for expressions. -/
theorem statementWith_of_expression {c : Cursor} {x : Lexeme} {xs : List Lexeme}
    (hv : c.view = x :: xs) (hx : BeginsExpression x) :
    statementWith expression statement bound c = expressionStmt expression c := by
  obtain ⟨k, v⟩ := x
  obtain ⟨hk, hw⟩ := current_of_view hv
  rw [statementWith, peek_bind, hk, hw]
  cases k with
  | number => rfl
  | string => rfl
  | eof => rfl
  | ident =>
    have hn : v ∉ statementWords := by
      rcases hx with hx | ⟨s, -, hs⟩
      · exact hx
      · cases hs
    simp only [statementWords, List.mem_cons, List.not_mem_nil, or_false, not_or] at hn
    simp [hn]
  | symbol s =>
    have hn : s ≠ "\x7b" ∧ s ≠ ";" := by
      rcases hx with hx | ⟨s', hs, h⟩
      · rcases hx with rfl | rfl <;> decide
      · obtain rfl : s = s' := by simpa using h
        constructor <;> rintro rfl <;> exact absurd hs (by decide)
    simp [hn]

def wordRules (expression statement : Parse Node) (bound : Nat) : List (String × Parse Node) :=
  [("var", varDecl expression), ("const", varDecl expression),
    ("function", funcDecl statement bound), ("if", ifStmt expression statement bound),
    ("while", whileStmt expression statement bound), ("for", forStmt expression statement bound),
    ("return", returnStmt expression), ("delete", deleteStmt)]

/-- What begins with a word of its own is read as the rule for that word reads it. -/
theorem Reads.of_word {p : Parse Node} {c : Cursor} {s : String} {e : Node} {ts us : List Lexeme}
    (hv : c.view = (.ident, s) :: ts) (hp : (s, p) ∈ wordRules expression statement bound)
    (h : Reads p id c e us) : Reads (statementWith expression statement bound) id c e us := by
  obtain ⟨hk, rfl⟩ := current_of_view hv
  suffices statementWith expression statement bound c = p c by rwa [Reads, this]
  rw [statementWith, peek_bind, hk]
  simp only [wordRules, List.mem_cons, List.not_mem_nil, or_false, Prod.mk.injEq] at hp
  rcases hp with ⟨hw, rfl⟩ | ⟨hw, rfl⟩ | ⟨hw, rfl⟩ | ⟨hw, rfl⟩ | ⟨hw, rfl⟩ | ⟨hw, rfl⟩ | ⟨hw, rfl⟩ |
    ⟨hw, rfl⟩ <;> simp [hw]

include he hs hb in
theorem statementWith_complete :
    Complete (statementWith expression statement bound) id .statement (m + 1) := by
  intro c e us hc hl h hstop
  generalize hts : c.view = ts at h
  have hlen : ts.length ≤ m + 1 := hts ▸ hl
  cases h with
  | loosen hl | binary hl => cases hl
  | ofBlock h =>
    obtain ⟨⟨k, v⟩, xs, hx, hbegin⟩ := h.begins
    obtain ⟨d, ha, hd, hdn⟩ := block_reads hs hb hc hts hlen h
    obtain ⟨hk, -⟩ := current_of_view (hts.trans hx)
    refine ⟨e, d, ?_, rfl, hd, hdn⟩
    obtain rfl : k = .symbol "\x7b" := hbegin
    rw [statementWith, peek_bind, hk]
    simpa using ha
  | ofDeclaration h =>
    obtain ⟨x, xs, hx, hbegin⟩ := h.begins
    subst hts
    have hr := varDecl_complete he hc hl h (stops_of_nil rfl (by simp) us)
    rcases hbegin with rfl | rfl
    · exact .of_word hx (by simp [wordRules]) hr
    · exact .of_word hx (by simp [wordRules]) hr
  | ofExpression h hu =>
    obtain ⟨x, xs, hx, hbegin⟩ := h.begins
    have hr := expressionStmt_reads he hc hts hlen h hu
    rw [Reads, statementWith_of_expression (hts.trans hx) hbegin]
    exact hr
  | empty v us =>
    obtain ⟨hk, -, hv, hn⟩ := at_symbol hc hts
    refine ⟨_, c.next, ?_, rfl, hv, hn⟩
    simp only [statementWith, peek_bind, hk, String.reduceEq, if_false, if_true, advance_bind,
      pure_apply]
  | function v hname hp hbody =>
    simp only [List.length_cons] at hlen
    have hr := funcDecl_reads hs hb hc hts (by omega) hname hp hbody
    exact .of_word hts (by simp [wordRules]) hr
  | ifThen v w hcond ha =>
    simp only [List.length_cons] at hlen
    have hr := ifThen_reads he hs hb hc hts (by omega) hcond ha hstop
    exact .of_word hts (by simp [wordRules]) hr
  | ifElse v w hcond ha hbody =>
    simp only [List.length_cons] at hlen
    have hr := ifElse_reads he hs hb hc hts (by omega) hcond ha hbody
    exact .of_word hts (by simp [wordRules]) hr
  | «while» v w hcond hbody =>
    simp only [List.length_cons] at hlen
    have hr := while_reads he hs hb hc hts (by omega) hcond hbody
    exact .of_word hts (by simp [wordRules]) hr
  | forDeclared v w₁ w₂ hi hcond hnext hbody =>
    simp only [List.length_cons] at hlen
    have hr := for_reads he hs hb hc hts (by omega) (.inl hi) hcond hnext hbody
    exact .of_word hts (by simp [wordRules]) hr
  | forExpression v w₀ w₁ w₂ hi hcond hnext hbody =>
    simp only [List.length_cons] at hlen
    have hr := for_reads he hs hb hc hts (by omega) (.inr ⟨_, hi⟩) hcond hnext hbody
    exact .of_word hts (by simp [wordRules]) hr
  | returnNothing v us =>
    obtain ⟨hk, hw, hv₁, hn₁⟩ := at_ident hc hts
    obtain ⟨hk₁, -, hv₂, hn₂⟩ := at_symbol hn₁ hv₁
    refine .of_word (p := returnStmt expression) hts (by simp [wordRules])
      ⟨_, c.next.next, ?_, rfl, hv₂, hn₂⟩
    simp only [returnStmt, discard_expectWord_bind, hk, hw, and_self, if_true, isAtSymbol_bind,
      hk₁, decide_true, advance_bind, pure_apply]
  | returnValue v h =>
    simp only [List.length_cons] at hlen
    have hr := return_reads he hc hts (by omega) h
    exact .of_word hts (by simp [wordRules]) hr
  | delete v us hname =>
    obtain ⟨hk, hw, hv₁, hn₁⟩ := at_ident hc hts
    obtain ⟨hk₁, rfl, hv₂, hn₂⟩ := at_ident hn₁ hv₁
    obtain ⟨hk₂, -, hv₃, hn₃⟩ := at_symbol hn₂ hv₂
    refine .of_word (p := deleteStmt) hts (by simp [wordRules])
      ⟨_, c.next.next.next, ?_, rfl, hv₃, hn₃⟩
    simp only [deleteStmt, discard_expectWord_bind, hk, hw, and_self, if_true, name_bind, hk₁,
      if_neg hname, discard_expectSymbol_bind, hk₂, pure_apply]

end Statements

theorem statement_complete (n : Nat) : Complete (statement (n + 2)) id .statement n := by
  induction n with
  | zero =>
    intro c e us hc hl
    have := view_length_pos c
    omega
  | succ n ih =>
    exact statementWith_complete (expression_complete (n + 1)) ih (Nat.le_succ _)

theorem statements_complete {statement : Parse Node} {limit : Nat}
    (hs : Complete statement id .statement limit) (n : Nat) {c : Cursor} {e : Node}
    {us : List Lexeme} (hc : c.HasEnd) (hn : c.view.length ≤ n) (hl : c.view.length ≤ limit)
    (h : Derives .program c.view e us) : Reads (statements statement n) .list c e us := by
  induction n generalizing c e with
  | zero =>
    have := view_length_pos c
    omega
  | succ n ih =>
    generalize hts : c.view = ts at h
    cases h with
    | loosen hl | binary hl => cases hl
    | programEnd v us =>
      obtain ⟨hk, -⟩ := current_of_view hts
      exact ⟨[], c, by simp [statements, hk], rfl, hts, hc⟩
    | programMore h hes =>
      obtain ⟨⟨k, v⟩, xs, hx, hbegin⟩ := h.begins
      obtain ⟨hk, -⟩ := current_of_view (hts.trans hx)
      obtain ⟨e', c₁, ha, rfl, hv₁, hn₁⟩ := hs hc hl (hts ▸ h) (hes.stops_statement (.inr rfl))
      have hlt := (hts ▸ h).length_lt (by simp)
      rw [← hv₁] at hes hlt
      obtain ⟨es, d, has, hes', hd, hdn⟩ := ih hn₁ (by omega) (by omega) hes
      obtain rfl := Node.list.inj hes'
      refine ⟨e' :: es, d, ?_, rfl, hd, hdn⟩
      have hk₁ : c.current.kind ≠ .eof := hk ▸ hbegin.1
      simp only [statements, isAt_bind, hk₁, decide_false, Bool.false_eq_true, if_false]
      rw [bind_of_ok ha, bind_of_ok has]
      rfl

theorem viewOf_length_le (ts : List Token) : (viewOf ts).length ≤ ts.length := by
  induction ts with
  | nil => simp [viewOf]
  | cons t ts ih =>
    rw [viewOf]
    split <;> simp [ih]

/-- A program that the grammar derives from tokens with an end among them is read from them. -/
theorem ofTokens_complete {t : Token} {ts : List Token} {body : Node} {us : List Lexeme}
    (hc : HasEnd ⟨t, ts⟩) (h : Derives .program (view ⟨t, ts⟩) body us) :
    Node.ofTokens (t :: ts) = .ok (.program body) := by
  have hl : (view ⟨t, ts⟩).length ≤ (t :: ts).length := viewOf_length_le (t :: ts)
  obtain ⟨es, d, ha, rfl, -, -⟩ :=
    statements_complete (statement_complete (t :: ts).length) _ hc (Nat.le_add_right_of_le hl) hl h
  rw [Node.ofTokens, program, bind_of_ok ha]
  rfl

end Script.Parse
