import Script.Proofs.Grammar

/-!
# What rules see of a token list

A rule reads a token list up to its first end token and never moves behind that. `Cursor.view` is
this part of the list without the lines. Every elementary rule is a step on the view, and a rule
made of several runs them one after another.
-/
namespace Script.Parse

open Token (Kind)

namespace Cursor

/-- The lexemes up to the first end token. -/
def viewOf : List Token → List Lexeme
  | [] => []
  | t :: ts => if t.kind = .eof then [t.bare] else t.bare :: viewOf ts

def view (c : Cursor) : List Lexeme := viewOf (c.current :: c.rest)

def HasEnd (c : Cursor) : Prop := ∃ t ∈ c.current :: c.rest, t.kind = .eof

theorem view_eof {c : Cursor} (h : c.current.kind = .eof) : c.view = [(.eof, c.current.value)] := by
  simp [view, viewOf, h, Token.bare]

theorem view_cons {c : Cursor} (hc : c.HasEnd) (h : c.current.kind ≠ .eof) :
    c.view = (c.current.kind, c.current.value) :: c.next.view ∧ c.next.HasEnd := by
  obtain ⟨⟨k, v, l⟩, rest⟩ := c
  obtain ⟨t, ht, hk⟩ := hc
  cases rest with
  | nil =>
    obtain rfl : t = ⟨k, v, l⟩ := by simpa using ht
    exact absurd hk h
  | cons u us =>
    have hn : next ⟨⟨k, v, l⟩, u :: us⟩ = ⟨u, us⟩ := by
      cases k <;> simp_all [next]
    refine ⟨?_, ?_⟩
    · rw [hn]
      simp_all [view, viewOf, Token.bare]
    · rw [hn]
      rcases List.mem_cons.mp ht with rfl | ht
      · exact absurd hk h
      · exact ⟨t, ht, hk⟩

/-- The first lexeme ahead is the token that the cursor stands at. -/
theorem current_of_view {c : Cursor} {k : Kind} {v : String} {ts : List Lexeme}
    (h : c.view = (k, v) :: ts) : c.current.kind = k ∧ c.current.value = v := by
  simp only [view, viewOf, Token.bare] at h
  split at h <;> simp_all

theorem next_view {c : Cursor} {k : Kind} {v : String} {ts : List Lexeme} (hc : c.HasEnd)
    (h : c.view = (k, v) :: ts) (hk : k ≠ .eof) : c.next.view = ts ∧ c.next.HasEnd := by
  obtain ⟨rfl, rfl⟩ := current_of_view h
  obtain ⟨hv, hn⟩ := view_cons hc hk
  rw [h] at hv
  exact ⟨(List.cons.inj hv).2.symm, hn⟩

theorem view_ne_nil (c : Cursor) : c.view ≠ [] := by
  simp only [view, viewOf]
  split <;> simp

end Cursor

theorem bind_eq_ok {α β : Type} {p : Parse α} {f : α → Parse β} {c : Cursor} {r : β × Cursor} :
    (p >>= f) c = .ok r ↔ ∃ a d, p c = .ok (a, d) ∧ f a d = .ok r := by
  change (p c >>= fun x => f x.1 x.2) = .ok r ↔ _
  cases h : p c with
  | error e => simp [bind, Except.bind]
  | ok x =>
    obtain ⟨a, d⟩ := x
    simp [bind, Except.bind]

theorem bind_of_ok {α β : Type} {p : Parse α} {f : α → Parse β} {c d : Cursor} {a : α}
    (h : p c = .ok (a, d)) : (p >>= f) c = f a d := by
  change (p c >>= fun x => f x.1 x.2) = _
  rw [h]
  rfl

@[simp] theorem pure_apply {α : Type} (a : α) (c : Cursor) :
    (pure a : Parse α) c = .ok (a, c) := rfl

@[simp] theorem throw_apply {α : Type} (e : ParseFault) (c : Cursor) :
    (throw e : Parse α) c = .error e := rfl

@[simp] theorem fail_apply {α : Type} (cause : ParseFault.Cause) (line : Int) (c : Cursor) :
    (fail cause line : Parse α) c = .error (.misfit cause line c) := rfl

section Steps

variable {β : Type}

@[simp] theorem peek_bind (f : Token → Parse β) (c : Cursor) : (peek >>= f) c = f c.current c := rfl

@[simp] theorem advance_bind (f : Unit → Parse β) (c : Cursor) :
    (advance >>= f) c = f () c.next := rfl

@[simp] theorem take_bind (f : Token → Parse β) (c : Cursor) :
    (take >>= f) c = f c.current c.next := rfl

@[simp] theorem isAt_bind (k : Kind) (f : Bool → Parse β) (c : Cursor) :
    (isAt k >>= f) c = f (c.current.kind = k) c := rfl

@[simp] theorem isAtSymbol_bind (s : String) (f : Bool → Parse β) (c : Cursor) :
    (isAtSymbol s >>= f) c = f (c.current.kind = .symbol s) c := rfl

@[simp] theorem isAtAny_bind (ss : List String) (f : Bool → Parse β) (c : Cursor) :
    (isAtAny ss >>= f) c = f (ss.any fun s => c.current.kind = .symbol s) c := rfl

@[simp] theorem isAtWord_bind (s : String) (f : Bool → Parse β) (c : Cursor) :
    (isAtWord s >>= f) c = f (c.current.kind = .ident && c.current.value = s) c := rfl

@[simp] theorem advance_apply (c : Cursor) : advance c = .ok ((), c.next) := rfl

@[simp] theorem take_apply (c : Cursor) : take c = .ok (c.current, c.next) := rfl

theorem expect_apply (k : Kind) (c : Cursor) :
    expect k c = if c.current.kind = k then .ok (c.current, c.next)
      else .error (.misfit (.expected k.name c.current) c.current.line c) := by
  simp only [expect, peek_bind]
  split <;> simp

@[simp] theorem expect_bind (k : Kind) (f : Token → Parse β) (c : Cursor) :
    (expect k >>= f) c = if c.current.kind = k then f c.current c.next
      else .error (.misfit (.expected k.name c.current) c.current.line c) := by
  change (expect k c >>= fun x => f x.1 x.2) = _
  rw [expect_apply]
  split <;> rfl

theorem discard_bind {α : Type} (p : Parse α) (f : Unit → Parse β) (c : Cursor) :
    (discard p >>= f) c = (p >>= fun _ => f ()) c := by
  change (p c >>= fun x => Except.ok ((), x.2)) >>= (fun x => f x.1 x.2) = _
  change _ = (p c >>= fun x => f () x.2)
  cases p c <;> rfl

theorem discard_eq_ok {α : Type} {p : Parse α} {c d : Cursor} :
    discard p c = .ok ((), d) ↔ ∃ a, p c = .ok (a, d) := by
  change (p c >>= fun x => Except.ok ((), x.2)) = _ ↔ _
  cases h : p c with
  | error e => simp [bind, Except.bind]
  | ok x =>
    obtain ⟨a, d'⟩ := x
    simp [bind, Except.bind]

@[simp] theorem discard_expectSymbol_bind (s : String) (f : Unit → Parse β) (c : Cursor) :
    (discard (expectSymbol s) >>= f) c = if c.current.kind = .symbol s then f () c.next
      else .error (.misfit (.expected s c.current) c.current.line c) := by
  rw [discard_bind, expectSymbol, expect_bind]
  rfl

theorem expectWord_apply (s : String) (c : Cursor) :
    expectWord s c = if c.current.kind = .ident ∧ c.current.value = s then .ok (c.current, c.next)
      else .error (.misfit (.expectedWord s c.current) c.current.line c) := by
  simp only [expectWord, isAtWord_bind, Bool.and_eq_true, decide_eq_true_eq]
  split <;> simp

@[simp] theorem discard_expectWord_bind (s : String) (f : Unit → Parse β) (c : Cursor) :
    (discard (expectWord s) >>= f) c =
      if c.current.kind = .ident ∧ c.current.value = s then f () c.next
      else .error (.misfit (.expectedWord s c.current) c.current.line c) := by
  rw [discard_bind]
  change (expectWord s c >>= fun x => f () x.2) = _
  rw [expectWord_apply]
  split <;> rfl

theorem name_apply (c : Cursor) :
    name c = if c.current.kind = .ident then
        if c.current.value ∈ keywords then
          .error (.misfit (.keyword c.current.value) c.current.line c.next)
        else .ok (c.current.value, c.next)
      else .error (.misfit (.expected Kind.ident.name c.current) c.current.line c) := by
  simp only [name, expect_bind, List.contains_iff_mem]
  split
  · split <;> simp
  · rfl

@[simp] theorem name_bind (f : String → Parse β) (c : Cursor) :
    (name >>= f) c = if c.current.kind = .ident then
        if c.current.value ∈ keywords then
          .error (.misfit (.keyword c.current.value) c.current.line c.next)
        else f c.current.value c.next
      else .error (.misfit (.expected Kind.ident.name c.current) c.current.line c) := by
  change (name c >>= fun x => f x.1 x.2) = _
  rw [name_apply]
  split
  · split <;> rfl
  · rfl

end Steps

end Script.Parse
