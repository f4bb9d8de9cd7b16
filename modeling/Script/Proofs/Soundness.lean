import Script.Proofs.Cursor

/-!
# Rules read only what the grammar derives

A rule that goes through has read a phrase of its category, and its result is the tree of that
phrase. Loops carry the phrase that stands before the place where they are.
-/
namespace Script.Parse

open Grammar Cursor

/-- What `p` reads is a phrase of the category `k`, and an end token stays ahead. -/
def Sound {α : Type} (p : Parse α) (tree : α → Node) (k : Category) : Prop :=
  ∀ ⦃c : Cursor⦄ ⦃a : α⦄ ⦃d : Cursor⦄, c.HasEnd → p c = .ok (a, d) →
    Derives k c.view (tree a) d.view ∧ d.HasEnd

theorem symbol_step {c : Cursor} {s : String} (hc : c.HasEnd) (h : c.current.kind = .symbol s) :
    c.view = (.symbol s, c.current.value) :: c.next.view ∧ c.next.HasEnd := by
  have hv := view_cons hc (by simp [h])
  rwa [h] at hv

theorem ident_step {c : Cursor} (hc : c.HasEnd) (h : c.current.kind = .ident) :
    c.view = (.ident, c.current.value) :: c.next.view ∧ c.next.HasEnd := by
  have hv := view_cons hc (by simp [h])
  rwa [h] at hv

theorem word_step {c : Cursor} {s : String} (hc : c.HasEnd) (h : c.current.kind = .ident)
    (hs : c.current.value = s) : c.view = (.ident, s) :: c.next.view ∧ c.next.HasEnd :=
  hs ▸ ident_step hc h

section Expecting

variable {β : Type} {c : Cursor} {r : β × Cursor}

/-- What goes through behind a symbol has that symbol ahead. -/
theorem symbol_bind_ok {s : String} {f : Unit → Parse β} (hc : c.HasEnd)
    (h : (discard (expectSymbol s) >>= f) c = .ok r) :
    ∃ v, c.view = (.symbol s, v) :: c.next.view ∧ c.next.HasEnd ∧ f () c.next = .ok r := by
  rw [discard_expectSymbol_bind] at h
  split at h
  · rename_i hk
    obtain ⟨hv, hn⟩ := symbol_step hc hk
    exact ⟨_, hv, hn, h⟩
  · cases h

theorem word_bind_ok {s : String} {f : Unit → Parse β} (hc : c.HasEnd)
    (h : (discard (expectWord s) >>= f) c = .ok r) :
    c.view = (.ident, s) :: c.next.view ∧ c.next.HasEnd ∧ f () c.next = .ok r := by
  rw [discard_expectWord_bind] at h
  split at h
  · rename_i hk
    obtain ⟨hv, hn⟩ := word_step hc hk.1 hk.2
    exact ⟨hv, hn, h⟩
  · cases h

theorem name_bind_ok {f : String → Parse β} (hc : c.HasEnd) (h : (name >>= f) c = .ok r) :
    IsName c.current.value ∧ c.view = (.ident, c.current.value) :: c.next.view ∧
      c.next.HasEnd ∧ f c.current.value c.next = .ok r := by
  rw [name_bind] at h
  split at h
  · rename_i hk
    obtain ⟨hv, hn⟩ := ident_step hc hk
    split at h
    · cases h
    · rename_i hs
      exact ⟨hs, hv, hn, h⟩
  · cases h

end Expecting

theorem name_sound : Sound name .text .name := by
  intro c s d hc h
  rw [← bind_pure name] at h
  obtain ⟨hs, hv, hn, h⟩ := name_bind_ok hc h
  obtain ⟨rfl, rfl⟩ : c.current.value = s ∧ c.next = d := by simpa using h
  rw [hv]
  exact ⟨.name _ hs, hn⟩

section Expressions

variable {α : Type} {p : Parse α} {tree : α → Node} {k : Category}

theorem moreItems_sound (hp : Sound p tree k) (n : Nat) {c d : Cursor} {as : List α}
    (hc : c.HasEnd) (h : moreItems p n c = .ok (as, d)) :
    d.HasEnd ∧ ∀ close v us, d.view = (.symbol close, v) :: us →
      Derives (.moreItems k close) c.view (.list (as.map tree)) us := by
  induction n generalizing c as with
  | zero => simp [moreItems] at h
  | succ n ih =>
    simp only [moreItems, isAtSymbol_bind, decide_eq_true_eq] at h
    split at h
    · rename_i hs
      obtain ⟨hv, hn⟩ := symbol_step hc hs
      rw [advance_bind, bind_eq_ok] at h
      obtain ⟨a, c', ha, h⟩ := h
      obtain ⟨as', c'', has, h⟩ := bind_eq_ok.mp h
      obtain ⟨rfl, rfl⟩ : a :: as' = as ∧ c'' = d := by simpa using h
      obtain ⟨hd, hn'⟩ := hp hn ha
      obtain ⟨hd', hm⟩ := ih hn' has
      refine ⟨hd', fun close v us hu => ?_⟩
      rw [hv]
      exact .more _ hd (hm close v us hu)
    · obtain ⟨rfl, rfl⟩ : [] = as ∧ c = d := by simpa using h
      refine ⟨hc, fun close v us hu => ?_⟩
      rw [hu]
      exact .noMore v us

theorem items_sound (hp : Sound p tree k) (bound : Nat) (close : String) :
    Sound (items bound p close) (fun as => .list (as.map tree)) (.items k close) := by
  intro c as d hc h
  simp only [items, isAtSymbol_bind, decide_eq_true_eq] at h
  split at h
  · rename_i hs
    obtain ⟨hv, hn⟩ := symbol_step hc hs
    obtain ⟨rfl, rfl⟩ : [] = as ∧ c.next = d := by simpa using h
    rw [hv]
    exact ⟨.noItems _ _, hn⟩
  · obtain ⟨a, c', ha, h⟩ := bind_eq_ok.mp h
    obtain ⟨as', c'', has, h⟩ := bind_eq_ok.mp h
    obtain ⟨hd, hn⟩ := hp hc ha
    obtain ⟨hn', hm⟩ := moreItems_sound hp bound hn has
    obtain ⟨v, hv, hn'', h⟩ := symbol_bind_ok hn' h
    obtain ⟨rfl, rfl⟩ : a :: as' = as ∧ c''.next = d := by simpa using h
    exact ⟨.someItems hd (hm close _ _ hv), hn''⟩

variable {expression : Parse Node} (he : Sound expression id .assignment) (bound : Nat)

include he

theorem word_sound {c d : Cursor} {e : Node} (hc : c.HasEnd) (hk : c.current.kind = .ident)
    (h : word expression bound c = .ok (e, d)) : Derives .primary c.view e d.view ∧ d.HasEnd := by
  obtain ⟨hv, hn⟩ := ident_step hc hk
  rw [hv]
  simp only [word, peek_bind] at h
  split at h
  · rename_i hb
    obtain ⟨rfl, rfl⟩ : .booleanLiteral (.boolean (decide (c.current.value = "true"))) = e ∧
        c.next = d := by simpa using h
    rcases hb with hb | hb
    · rw [hb]
      exact ⟨.isTrue _, hn⟩
    · rw [hb]
      exact ⟨.isFalse _, hn⟩
  · split at h
    · rename_i hb
      obtain ⟨rfl, rfl⟩ : Node.nullLiteral = e ∧ c.next = d := by simpa using h
      rw [hb]
      exact ⟨.null _, hn⟩
    · obtain ⟨hs, -, -, h⟩ := name_bind_ok hc h
      simp only [isAtSymbol_bind, decide_eq_true_eq] at h
      split at h
      · rename_i hp
        obtain ⟨hv', hn'⟩ := symbol_step hn hp
        rw [advance_bind, bind_eq_ok] at h
        obtain ⟨args, c', ha, h⟩ := h
        obtain ⟨rfl, rfl⟩ : .call (.text c.current.value) (.list args) = e ∧ c' = d := by
          simpa using h
        obtain ⟨hi, hc'⟩ := items_sound he bound ")" hn' ha
        rw [hv']
        exact ⟨.call _ hs (by simpa using hi), hc'⟩
      · obtain ⟨rfl, rfl⟩ : .identifier (.text c.current.value) = e ∧ c.next = d := by
          simpa using h
        exact ⟨.identifier _ hs, hn⟩

theorem primary_sound : Sound (primary expression bound) id .primary := by
  intro c e d hc h
  rw [primary, peek_bind] at h
  cases hk : c.current.kind with
  | number =>
    obtain ⟨hv, hn⟩ := view_cons hc (by simp [hk])
    obtain ⟨rfl, rfl⟩ : .numberLiteral (.text c.current.value) = e ∧ c.next = d := by
      simpa [hk] using h
    rw [hv, hk]
    exact ⟨.number _ _, hn⟩
  | string =>
    obtain ⟨hv, hn⟩ := view_cons hc (by simp [hk])
    obtain ⟨rfl, rfl⟩ : .stringLiteral (.text c.current.value) = e ∧ c.next = d := by
      simpa [hk] using h
    rw [hv, hk]
    exact ⟨.string _ _, hn⟩
  | ident => exact word_sound he bound hc hk (by simpa [hk] using h)
  | eof => simp [hk] at h
  | symbol s =>
    obtain ⟨hv, hn⟩ := symbol_step hc hk
    simp only [hk] at h
    split at h
    · rename_i hs
      subst hs
      rw [advance_bind, bind_eq_ok] at h
      obtain ⟨e', c', ha, h⟩ := h
      obtain ⟨hd, hn'⟩ := he hn ha
      obtain ⟨v, hv', hn'', h⟩ := symbol_bind_ok hn' h
      obtain ⟨rfl, rfl⟩ : e' = e ∧ c'.next = d := by simpa using h
      rw [hv]
      exact ⟨.paren _ v (by rwa [hv'] at hd), hn''⟩
    · split at h
      · rename_i hs
        subst hs
        rw [advance_bind, bind_eq_ok] at h
        obtain ⟨es, c', ha, h⟩ := h
        obtain ⟨rfl, rfl⟩ : .arrayLiteral (.list es) = e ∧ c' = d := by simpa using h
        obtain ⟨hi, hc'⟩ := items_sound he bound "]" hn ha
        rw [hv]
        exact ⟨.array _ (by simpa using hi), hc'⟩
      · simp at h

theorem indices_sound (n : Nat) {ts : List Lexeme} {c d : Cursor} {e e' : Node}
    (hd : Derives .indexed ts e c.view) (hc : c.HasEnd)
    (h : indices expression n e c = .ok (e', d)) : Derives .indexed ts e' d.view ∧ d.HasEnd := by
  induction n generalizing c e with
  | zero => simp [indices] at h
  | succ n ih =>
    simp only [indices, isAtSymbol_bind, decide_eq_true_eq] at h
    split at h
    · rename_i hs
      obtain ⟨hv, hn⟩ := symbol_step hc hs
      rw [advance_bind, bind_eq_ok] at h
      obtain ⟨i, c', hi, h⟩ := h
      obtain ⟨hdi, hn'⟩ := he hn hi
      obtain ⟨w, hv', hn'', h⟩ := symbol_bind_ok hn' h
      rw [hv'] at hdi
      rw [hv] at hd
      exact ih (.index _ _ hd hdi) hn'' h
    · obtain ⟨rfl, rfl⟩ : e = e' ∧ c = d := by simpa using h
      exact ⟨hd, hc⟩

omit he in
theorem update_ok {t : Token} {e e' : Node} {c d : Cursor} (h : update t e c = .ok (e', d)) :
    ∃ x, e = .identifier x ∧ e' = .unaryOp (.text t.value) (.identifier x) ∧ c = d := by
  cases e with
  | identifier x =>
    obtain ⟨rfl, rfl⟩ : .unaryOp (.text t.value) (.identifier x) = e' ∧ c = d := by
      simpa [update] using h
    exact ⟨x, rfl, rfl, rfl⟩
  | _ => simp [update] at h

omit he in
theorem symbols_step {ss : List String} {c : Cursor} (hc : c.HasEnd)
    (h : (ss.any fun s => decide (c.current.kind = .symbol s)) = true) :
    ∃ s ∈ ss, c.view = (.symbol s, c.current.value) :: c.next.view ∧ c.next.HasEnd := by
  obtain ⟨s, hs, hk⟩ := List.any_eq_true.mp h
  exact ⟨s, hs, symbol_step hc (of_decide_eq_true hk)⟩

theorem unary_sound (n : Nat) : Sound (unary expression bound n) id .unary := by
  induction n with
  | zero =>
    intro c e d hc h
    simp [unary] at h
  | succ n ih =>
    intro c e d hc h
    simp only [unary, isAtAny_bind] at h
    split at h
    · rename_i hs
      obtain ⟨s, hs, hv, hn⟩ := symbols_step hc hs
      rw [take_bind, bind_eq_ok] at h
      obtain ⟨e', c', ha, h⟩ := h
      obtain ⟨rfl, rfl⟩ : .unaryOp (.text c.current.value) e' = e ∧ c' = d := by simpa using h
      obtain ⟨hd, hn'⟩ := ih hn ha
      rw [hv]
      exact ⟨.negation _ hs hd, hn'⟩
    · rw [isAtAny_bind] at h
      split at h
      · rename_i hs
        obtain ⟨s, hs, hv, hn⟩ := symbols_step hc hs
        rw [take_bind, bind_eq_ok] at h
        obtain ⟨e', c', ha, h⟩ := h
        obtain ⟨x, rfl, rfl, rfl⟩ := update_ok h
        obtain ⟨hd, hn'⟩ := ih hn ha
        rw [hv]
        exact ⟨.stepBefore _ hs hd, hn'⟩
      · obtain ⟨e₁, c₁, h₁, h⟩ := bind_eq_ok.mp h
        obtain ⟨e₂, c₂, h₂, h⟩ := bind_eq_ok.mp h
        obtain ⟨hd₁, hn₁⟩ := primary_sound he bound hc h₁
        obtain ⟨hd₂, hn₂⟩ := indices_sound he bound (.loosen rfl hd₁) hn₁ h₂
        rw [isAtAny_bind] at h
        split at h
        · rename_i hs
          obtain ⟨s, hs, hv, hn⟩ := symbols_step hn₂ hs
          rw [take_bind] at h
          obtain ⟨x, rfl, rfl, rfl⟩ := update_ok h
          rw [hv] at hd₂
          exact ⟨.stepAfter hs hd₂, hn⟩
        · obtain ⟨rfl, rfl⟩ : e₂ = e ∧ c₂ = d := by simpa using h
          exact ⟨.loosen rfl hd₂, hn₂⟩

omit he in
theorem chain_sound {operand : Parse Node} {l l' : Category} (hl : l.tighter? = some l')
    (ho : Sound operand id l') (n : Nat) {ts : List Lexeme} {c d : Cursor} {e e' : Node}
    (hd : Derives l ts e c.view) (hc : c.HasEnd)
    (h : chain operand l.operators n e c = .ok (e', d)) :
    Derives l ts e' d.view ∧ d.HasEnd := by
  induction n generalizing c e with
  | zero => simp [chain] at h
  | succ n ih =>
    simp only [chain, isAtAny_bind] at h
    split at h
    · rename_i hs
      obtain ⟨s, hs, hv, hn⟩ := symbols_step hc hs
      rw [take_bind, bind_eq_ok] at h
      obtain ⟨b, c', hb, h⟩ := h
      obtain ⟨hdb, hn'⟩ := ho hn hb
      rw [hv] at hd
      exact ih (.binary hl hs hd hdb) hn' h
    · obtain ⟨rfl, rfl⟩ : e = e' ∧ c = d := by simpa using h
      exact ⟨hd, hc⟩

omit he in
theorem level_sound {operand : Parse Node} {l l' : Category} (hl : l.tighter? = some l')
    (ho : Sound operand id l') : Sound (level bound l.operators operand) id l := by
  intro c e d hc h
  obtain ⟨e', c', h', h⟩ := bind_eq_ok.mp h
  obtain ⟨hd, hn⟩ := ho hc h'
  exact chain_sound hl ho bound (.loosen hl hd) hn h

theorem logical_sound : Sound (logical expression bound) id .logical := by
  have h₁ : Sound (multiplicative expression bound) id .multiplicative :=
    level_sound (l := .multiplicative) bound rfl (unary_sound he bound bound)
  have h₂ : Sound (additive expression bound) id .additive :=
    level_sound (l := .additive) bound rfl h₁
  have h₃ : Sound (comparison expression bound) id .comparison :=
    level_sound (l := .comparison) bound rfl h₂
  exact level_sound (l := .logical) bound rfl h₃

theorem assignment_sound (n : Nat) : Sound (assignment expression bound n) id .assignment := by
  induction n with
  | zero =>
    intro c e d hc h
    simp [assignment] at h
  | succ n ih =>
    intro c e d hc h
    obtain ⟨e', c', h', h⟩ := bind_eq_ok.mp h
    obtain ⟨hd, hn⟩ := logical_sound he bound hc h'
    rw [peek_bind] at h
    cases hf : assignments.find? fun a => c'.current.kind = .symbol a.1 with
    | none =>
      obtain ⟨rfl, rfl⟩ : e' = e ∧ c' = d := by simpa [hf] using h
      exact ⟨.loosen rfl hd, hn⟩
    | some a =>
      obtain ⟨s, f⟩ := a
      have hk : c'.current.kind = .symbol s := by simpa using List.find?_some hf
      obtain ⟨hv, hn'⟩ := symbol_step hn hk
      simp only [hf] at h
      cases e' with
      | identifier x =>
        simp only [advance_bind, bind_eq_ok] at h
        obtain ⟨b, c'', hb, h⟩ := h
        obtain ⟨rfl, rfl⟩ : assigned x b f = e ∧ c'' = d := by simpa using h
        obtain ⟨hdb, hn''⟩ := ih hn' hb
        simp only [id, hv] at hd
        exact ⟨.assign (List.mem_of_find?_eq_some hf) hd hdb, hn''⟩
      | _ => simp at h

omit he in
theorem expression_sound (n : Nat) : Sound (Parse.expression n) id .assignment := by
  induction n with
  | zero =>
    intro c e d hc h
    simp [Parse.expression] at h
  | succ n ih => exact assignment_sound ih n n

end Expressions

section Statements

variable {expression statement : Parse Node} (he : Sound expression id .assignment)
  (hs : Sound statement id .statement) (bound : Nat)

theorem endOfExpression_ok {c d : Cursor} (hc : c.HasEnd) (h : endOfExpression c = .ok ((), d)) :
    Ends c.view d.view ∧ d.HasEnd := by
  simp only [endOfExpression, isAtSymbol_bind, decide_eq_true_eq] at h
  split at h
  · rename_i hk
    obtain ⟨hv, hn⟩ := symbol_step hc hk
    obtain rfl : c.next = d := by simpa using h
    rw [hv]
    exact ⟨.semicolon _ _, hn⟩
  · simp only [isAtSymbol_bind, isAt_bind, Bool.or_eq_true, decide_eq_true_eq] at h
    split at h
    · rename_i hk
      obtain rfl : c = d := by simpa using h
      rcases hk with hk | hk
      · rw [(symbol_step hc hk).1]
        exact ⟨.brace _ _, hc⟩
      · rw [view_eof hk]
        exact ⟨.eof _ _, hc⟩
    · rename_i hk _
      obtain ⟨t, ht⟩ := discard_eq_ok.mp h
      simp [expectSymbol, expect_apply, hk] at ht

include he in
theorem varDecl_sound {c d : Cursor} {e : Node} (hc : c.HasEnd) (hk : c.current.kind = .ident)
    (hw : c.current.value = "var" ∨ c.current.value = "const")
    (h : varDecl expression c = .ok (e, d)) : Derives .declaration c.view e d.view ∧ d.HasEnd := by
  obtain ⟨hv, hn⟩ := ident_step hc hk
  rw [varDecl, expect_bind, if_pos hk] at h
  obtain ⟨hs, hv₁, hn₁, h⟩ := name_bind_ok hn h
  rw [hv, hv₁]
  simp only [isAtSymbol_bind, decide_eq_true_eq] at h
  split at h
  · rename_i hq
    obtain ⟨hv₂, hn₂⟩ := symbol_step hn₁ hq
    rw [advance_bind] at h
    obtain ⟨e', c', ha, h⟩ := bind_eq_ok.mp h
    obtain ⟨hd, hn₃⟩ := he hn₂ ha
    obtain ⟨v, hv₄, hn₄, h⟩ := symbol_bind_ok hn₃ h
    obtain ⟨rfl, rfl⟩ : .varDecl (.text c.next.current.value) e'
        (.boolean (decide (c.current.value = "const"))) = e ∧ c'.next = d := by
      simpa using h
    rw [hv₄] at hd
    rw [hv₂]
    exact ⟨.initialized _ _ hw hs hd, hn₄⟩
  · split at h
    · simp [bind_eq_ok] at h
    · rename_i hconst
      rw [pure_bind] at h
      obtain ⟨v, hv₂, hn₂, h⟩ := symbol_bind_ok hn₁ h
      obtain ⟨rfl, rfl⟩ : .varDecl (.text c.next.current.value) .null
          (.boolean (decide (c.current.value = "const"))) = e ∧ c.next.next.next = d := by
        simpa using h
      have hvar : c.current.value = "var" := hw.resolve_right (by simpa using hconst)
      rw [hv₂, hvar]
      exact ⟨.uninitialized _ _ hs, hn₂⟩

include hs

theorem blockRest_sound (n : Nat) :
    Sound (blockRest statement n) .list .body := by
  induction n with
  | zero =>
    intro c es d hc h
    simp [blockRest] at h
  | succ n ih =>
    intro c es d hc h
    simp only [blockRest, isAtSymbol_bind, decide_eq_true_eq] at h
    split at h
    · rename_i hk
      obtain ⟨hv, hn⟩ := symbol_step hc hk
      obtain ⟨rfl, rfl⟩ : [] = es ∧ c.next = d := by simpa using h
      rw [hv]
      exact ⟨.bodyEnd _ _, hn⟩
    · simp only [isAt_bind, decide_eq_true_eq] at h
      split at h
      · simp at h
      · obtain ⟨e, c', ha, h⟩ := bind_eq_ok.mp h
        obtain ⟨es', c'', has, h⟩ := bind_eq_ok.mp h
        obtain ⟨rfl, rfl⟩ : e :: es' = es ∧ c'' = d := by simpa using h
        obtain ⟨hd, hn⟩ := hs hc ha
        obtain ⟨hd', hn'⟩ := ih hn has
        exact ⟨.bodyMore hd hd', hn'⟩

theorem block_sound : Sound (block statement bound) id .block := by
  intro c e d hc h
  obtain ⟨v, hv, hn, h⟩ := symbol_bind_ok hc h
  obtain ⟨es, c', ha, h⟩ := bind_eq_ok.mp h
  obtain ⟨rfl, rfl⟩ : .block (.list es) = e ∧ c' = d := by simpa using h
  obtain ⟨hd, hn'⟩ := blockRest_sound hs bound hn ha
  rw [hv]
  exact ⟨.block _ hd, hn'⟩

theorem funcDecl_sound : Sound (funcDecl statement bound) id .statement := by
  intro c e d hc h
  obtain ⟨hv, hn, h⟩ := word_bind_ok hc h
  obtain ⟨hname, hv₁, hn₁, h⟩ := name_bind_ok hn h
  obtain ⟨v, hv₂, hn₂, h⟩ := symbol_bind_ok hn₁ h
  obtain ⟨ps, c₁, hp, h⟩ := bind_eq_ok.mp h
  obtain ⟨b, c₂, hb, h⟩ := bind_eq_ok.mp h
  obtain ⟨rfl, rfl⟩ : .funcDecl (.text c.next.current.value) (.list (ps.map .text)) b = e ∧
      c₂ = d := by simpa using h
  obtain ⟨hdp, hn₃⟩ := items_sound name_sound bound ")" hn₂ hp
  obtain ⟨hdb, hn₄⟩ := block_sound hs bound hn₃ hb
  rw [hv, hv₁, hv₂]
  exact ⟨.function _ hname hdp hdb, hn₄⟩

omit hs

include he in
theorem condition_sound {c d : Cursor} {e : Node} (hc : c.HasEnd)
    (h : condition expression c = .ok (e, d)) :
    ∃ ts v w, c.view = (.symbol "(", v) :: ts ∧
      Derives .assignment ts e ((.symbol ")", w) :: d.view) ∧ d.HasEnd := by
  obtain ⟨v, hv, hn, h⟩ := symbol_bind_ok hc h
  obtain ⟨e', c', ha, h⟩ := bind_eq_ok.mp h
  obtain ⟨hd, hn'⟩ := he hn ha
  obtain ⟨w, hv', hn'', h⟩ := symbol_bind_ok hn' h
  obtain ⟨rfl, rfl⟩ : e' = e ∧ c'.next = d := by simpa using h
  exact ⟨_, v, w, hv, by rwa [hv'] at hd, hn''⟩

include he hs

theorem ifStmt_sound : Sound (ifStmt expression statement bound) id .statement := by
  intro c e d hc h
  obtain ⟨hv, hn, h⟩ := word_bind_ok hc h
  obtain ⟨e₁, c₁, h₁, h⟩ := bind_eq_ok.mp h
  obtain ⟨e₂, c₂, h₂, h⟩ := bind_eq_ok.mp h
  obtain ⟨ts, v, w, hv₁, hd₁, hn₁⟩ := condition_sound he hn h₁
  obtain ⟨hd₂, hn₂⟩ := block_sound hs bound hn₁ h₂
  rw [hv, hv₁]
  simp only [isAtWord_bind, Bool.and_eq_true, decide_eq_true_eq] at h
  split at h
  · rename_i hk
    obtain ⟨hv', hn'⟩ := word_step hn₂ hk.1 hk.2
    rw [advance_bind] at h
    obtain ⟨e₃, c₃, h₃, h⟩ := bind_eq_ok.mp h
    obtain ⟨rfl, rfl⟩ : .ifStmt e₁ e₂ e₃ = e ∧ c₃ = d := by simpa using h
    obtain ⟨hd₃, hn₃⟩ := block_sound hs bound hn' h₃
    rw [hv'] at hd₂
    exact ⟨.ifElse _ _ hd₁ hd₂ hd₃, hn₃⟩
  · obtain ⟨rfl, rfl⟩ : .ifStmt e₁ e₂ .null = e ∧ c₂ = d := by simpa using h
    exact ⟨.ifThen _ _ hd₁ hd₂, hn₂⟩

theorem whileStmt_sound : Sound (whileStmt expression statement bound) id .statement := by
  intro c e d hc h
  obtain ⟨hv, hn, h⟩ := word_bind_ok hc h
  obtain ⟨e₁, c₁, h₁, h⟩ := bind_eq_ok.mp h
  obtain ⟨e₂, c₂, h₂, h⟩ := bind_eq_ok.mp h
  obtain ⟨rfl, rfl⟩ : .whileStmt e₁ e₂ = e ∧ c₂ = d := by simpa using h
  obtain ⟨ts, v, w, hv₁, hd₁, hn₁⟩ := condition_sound he hn h₁
  obtain ⟨hd₂, hn₂⟩ := block_sound hs bound hn₁ h₂
  rw [hv, hv₁]
  exact ⟨.while _ _ hd₁ hd₂, hn₂⟩

omit hs in
theorem forInit_sound {c d : Cursor} {e : Node} (hc : c.HasEnd)
    (h : forInit expression c = .ok (e, d)) : d.HasEnd ∧
      (Derives .declaration c.view e d.view ∨
        ∃ w, Derives .assignment c.view e ((.symbol ";", w) :: d.view)) := by
  simp only [forInit, isAtWord_bind, Bool.or_eq_true, Bool.and_eq_true, decide_eq_true_eq] at h
  split at h
  · rename_i hk
    have hk' : c.current.kind = .ident ∧ (c.current.value = "var" ∨ c.current.value = "const") := by
      rcases hk with hk | hk
      · exact ⟨hk.1, .inl hk.2⟩
      · exact ⟨hk.1, .inr hk.2⟩
    obtain ⟨hd, hn⟩ := varDecl_sound he hc hk'.1 hk'.2 h
    exact ⟨hn, .inl hd⟩
  · obtain ⟨e', c', h', h⟩ := bind_eq_ok.mp h
    obtain ⟨hd, hn⟩ := he hc h'
    obtain ⟨v, hv, hn', h⟩ := symbol_bind_ok hn h
    obtain ⟨rfl, rfl⟩ : e' = e ∧ c'.next = d := by simpa using h
    rw [hv] at hd
    exact ⟨hn', .inr ⟨v, hd⟩⟩

theorem forStmt_sound : Sound (forStmt expression statement bound) id .statement := by
  intro c e d hc h
  obtain ⟨hv, hn, h⟩ := word_bind_ok hc h
  obtain ⟨v, hv', hn', h⟩ := symbol_bind_ok hn h
  obtain ⟨i, c₁, h₁, h⟩ := bind_eq_ok.mp h
  obtain ⟨e₂, c₂, h₂, h⟩ := bind_eq_ok.mp h
  obtain ⟨hn₁, hd₁⟩ := forInit_sound he hn' h₁
  obtain ⟨hd₂, hn₂⟩ := he hn₁ h₂
  obtain ⟨v₂, hv₂, hn₂', h⟩ := symbol_bind_ok hn₂ h
  obtain ⟨e₃, c₃, h₃, h⟩ := bind_eq_ok.mp h
  obtain ⟨hd₃, hn₃⟩ := he hn₂' h₃
  obtain ⟨v₃, hv₃, hn₃', h⟩ := symbol_bind_ok hn₃ h
  obtain ⟨b, c₄, h₄, h⟩ := bind_eq_ok.mp h
  obtain ⟨rfl, rfl⟩ : .forStmt i e₂ e₃ b = e ∧ c₄ = d := by simpa using h
  obtain ⟨hd₄, hn₄⟩ := block_sound hs bound hn₃' h₄
  rw [hv₂] at hd₂
  rw [hv₃] at hd₃
  rw [hv, hv']
  rcases hd₁ with hd₁ | ⟨w, hd₁⟩
  · exact ⟨.forDeclared _ _ _ hd₁ hd₂ hd₃ hd₄, hn₄⟩
  · exact ⟨.forExpression _ _ _ _ hd₁ hd₂ hd₃ hd₄, hn₄⟩

omit hs in
theorem returnStmt_sound : Sound (returnStmt expression) id .statement := by
  intro c e d hc h
  obtain ⟨hv, hn, h⟩ := word_bind_ok hc h
  rw [hv]
  simp only [isAtSymbol_bind, decide_eq_true_eq] at h
  split at h
  · rename_i hq
    obtain ⟨hv', hn'⟩ := symbol_step hn hq
    obtain ⟨rfl, rfl⟩ : .returnStmt .null = e ∧ c.next.next = d := by simpa using h
    rw [hv']
    exact ⟨.returnNothing _ _, hn'⟩
  · obtain ⟨e', c', h', h⟩ := bind_eq_ok.mp h
    obtain ⟨hd, hn'⟩ := he hn h'
    obtain ⟨v, hv', hn'', h⟩ := symbol_bind_ok hn' h
    obtain ⟨rfl, rfl⟩ : .returnStmt e' = e ∧ c'.next = d := by simpa using h
    rw [hv'] at hd
    exact ⟨.returnValue _ hd, hn''⟩

omit he hs in
theorem deleteStmt_sound : Sound deleteStmt id .statement := by
  intro c e d hc h
  obtain ⟨hv, hn, h⟩ := word_bind_ok hc h
  obtain ⟨hname, hv₁, hn₁, h⟩ := name_bind_ok hn h
  obtain ⟨v, hv₂, hn₂, h⟩ := symbol_bind_ok hn₁ h
  obtain ⟨rfl, rfl⟩ : .deleteStmt (.text c.next.current.value) = e ∧
      c.next.next.next = d := by simpa using h
  rw [hv, hv₁, hv₂]
  exact ⟨.delete _ _ hname, hn₂⟩

omit hs in
theorem expressionStmt_sound : Sound (expressionStmt expression) id .statement := by
  intro c e d hc h
  obtain ⟨e', c', h', h⟩ := bind_eq_ok.mp h
  obtain ⟨u, c'', hu, h⟩ := bind_eq_ok.mp h
  obtain ⟨rfl, rfl⟩ : e' = e ∧ c'' = d := by simpa using h
  obtain ⟨hd, hn⟩ := he hc h'
  obtain ⟨hends, hn'⟩ := endOfExpression_ok hn hu
  exact ⟨.ofExpression hd hends, hn'⟩

theorem statementWith_sound : Sound (statementWith expression statement bound) id .statement := by
  intro c e d hc h
  rw [statementWith, peek_bind] at h
  cases hk : c.current.kind with
  | ident =>
    simp only [hk] at h
    split at h
    · rename_i hw
      obtain ⟨hd, hn⟩ := varDecl_sound he hc hk hw h
      exact ⟨.ofDeclaration hd, hn⟩
    · split at h
      · exact funcDecl_sound hs bound hc h
      · split at h
        · exact ifStmt_sound he hs bound hc h
        · split at h
          · exact whileStmt_sound he hs bound hc h
          · split at h
            · exact forStmt_sound he hs bound hc h
            · split at h
              · exact returnStmt_sound he hc h
              · split at h
                · exact deleteStmt_sound hc h
                · exact expressionStmt_sound he hc h
  | symbol s =>
    simp only [hk] at h
    split at h
    · obtain ⟨hd, hn⟩ := block_sound hs bound hc h
      exact ⟨.ofBlock hd, hn⟩
    · split at h
      · rename_i hq
        obtain ⟨hv, hn⟩ := symbol_step hc (hq ▸ hk)
        obtain ⟨rfl, rfl⟩ : Node.emptyStmt = e ∧ c.next = d := by simpa using h
        rw [hv]
        exact ⟨.empty _ _, hn⟩
      · exact expressionStmt_sound he hc h
  | number => exact expressionStmt_sound he hc (by simpa only [hk] using h)
  | string => exact expressionStmt_sound he hc (by simpa only [hk] using h)
  | eof => exact expressionStmt_sound he hc (by simpa only [hk] using h)

omit he in
theorem statements_sound (n : Nat) : Sound (statements statement n) .list .program := by
  induction n with
  | zero =>
    intro c es d hc h
    simp [statements] at h
  | succ n ih =>
    intro c es d hc h
    simp only [statements, isAt_bind, decide_eq_true_eq] at h
    split at h
    · rename_i hk
      obtain ⟨rfl, rfl⟩ : [] = es ∧ c = d := by simpa using h
      rw [view_eof hk]
      exact ⟨.programEnd _ _, hc⟩
    · obtain ⟨e, c', ha, h⟩ := bind_eq_ok.mp h
      obtain ⟨es', c'', has, h⟩ := bind_eq_ok.mp h
      obtain ⟨rfl, rfl⟩ : e :: es' = es ∧ c'' = d := by simpa using h
      obtain ⟨hd, hn⟩ := hs hc ha
      obtain ⟨hd', hn'⟩ := ih hn has
      exact ⟨.programMore hd hd', hn'⟩

end Statements

theorem statement_sound (n : Nat) : Sound (statement n) id .statement := by
  induction n with
  | zero =>
    intro c e d hc h
    simp [statement] at h
  | succ n ih => exact statementWith_sound (expression_sound n) ih n

/-- A program that is read from tokens with an end among them is one that the grammar derives. -/
theorem ofTokens_sound {t : Token} {ts : List Token} {p : Node} (hc : HasEnd ⟨t, ts⟩)
    (h : Node.ofTokens (t :: ts) = .ok p) :
    ∃ body us, p = .program body ∧ Derives .program (view ⟨t, ts⟩) body us := by
  rw [Node.ofTokens] at h
  cases hr : program ((t :: ts).length + 2) ⟨t, ts⟩ with
  | error e =>
    rw [hr] at h
    cases h
  | ok r =>
    obtain ⟨q, d⟩ := r
    rw [hr] at h
    obtain ⟨es, c', hs, hq⟩ := bind_eq_ok.mp hr
    obtain rfl : q = p := by simpa [Except.map] using h
    obtain ⟨rfl, rfl⟩ : .program (.list es) = q ∧ c' = d := by simpa using hq
    exact ⟨_, _, rfl, (statements_sound (statement_sound _) _ hc hs).1⟩

end Script.Parse
