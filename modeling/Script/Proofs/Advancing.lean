import Script.Proofs.Cursor

/-!
# Rules move on

A rule starts at a place and ends at one further on, with a result or with a misfit, and on the way
it passes no end token. What it does is decided by the tokens that it passes and the one where it
ends: two token lists that agree that far make it do the same. How much nesting and how many passes
of a loop a rule needs is bounded by the tokens that it passes as well.

`Along` says all of this for two copies of a rule that may have different bounds, so that a proof
goes through the rules once.
-/
namespace Script.Parse

open Token (Kind)

namespace Cursor

def ahead (c : Cursor) : List Token := c.current :: c.rest

/-- Between two places there are some tokens, none of them an end token. -/
structure Passes (c : Cursor) (front : List Token) (d : Cursor) : Prop where
  ahead : c.ahead = front ++ d.ahead
  inner : ∀ t ∈ front, t.kind ≠ .eof

namespace Passes

variable {c d e : Cursor} {front back : List Token}

theorem refl (c : Cursor) : c.Passes [] c := by
  constructor
  · rfl
  · simp

theorem trans (h : c.Passes front d) (h' : d.Passes back e) : c.Passes (front ++ back) e := by
  constructor
  · rw [h.ahead, h'.ahead, List.append_assoc]
  · exact List.forall_mem_append.mpr ⟨h.inner, h'.inner⟩

theorem hasEnd (h : c.Passes front d) (hc : c.HasEnd) : d.HasEnd := by
  obtain ⟨t, ht, hk⟩ := hc
  have hmem : t ∈ front ++ d.ahead := h.ahead ▸ ht
  rcases List.mem_append.mp hmem with hf | hd
  · exact absurd hk (h.inner t hf)
  · exact ⟨t, hd, hk⟩

theorem view_length (h : c.Passes front d) : c.view.length = front.length + d.view.length := by
  have hview {ts : List Token} (hts : ∀ t ∈ ts, t.kind ≠ .eof) (us : List Token) :
      (viewOf (ts ++ us)).length = ts.length + (viewOf us).length := by
    induction ts with
    | nil => simp
    | cons t ts ih =>
      obtain ⟨ht, hts⟩ := List.forall_mem_cons.mp hts
      rw [List.cons_append, viewOf, if_neg ht, List.length_cons, ih hts, List.length_cons]
      omega
  have hlength := hview h.inner d.ahead
  rw [← h.ahead] at hlength
  exact hlength

/-- The first token is the same for every list that agrees up to the second place. -/
theorem current_eq (h : c.Passes front d) {c' d' : Cursor} (hd : d'.current = d.current)
    (hc : c'.ahead = front ++ d'.ahead) : c'.current = c.current := by
  have hahead := h.ahead
  cases front with
  | nil =>
    rw [(List.cons.inj hc).1, (List.cons.inj hahead).1, hd]
  | cons t ts => rw [(List.cons.inj hc).1, (List.cons.inj hahead).1]

/-- A place in another list that agrees up to the second place. -/
theorem exists_same (h : c.Passes front d) {d' : Cursor} (hd : d'.current = d.current) :
    ∃ c' : Cursor, c'.current = c.current ∧ c'.ahead = front ++ d'.ahead := by
  have hsome : front ++ d'.ahead ≠ [] := by simp [Cursor.ahead]
  obtain ⟨t, ts, hts⟩ := List.exists_cons_of_ne_nil hsome
  exact ⟨⟨t, ts⟩, h.current_eq hd hts.symm, hts.symm⟩

end Passes

theorem next_of_ahead {c d : Cursor} (h : c.current.kind ≠ .eof)
    (ha : c.ahead = c.current :: d.ahead) : c.next = d := by
  obtain ⟨⟨k, v, l⟩, rest⟩ := c
  obtain ⟨u, us⟩ := d
  obtain rfl : rest = u :: us := (List.cons.inj ha).2
  cases k with
  | eof => exact absurd rfl h
  | _ => rfl

theorem passes_next {c : Cursor} (hc : c.HasEnd) (h : c.current.kind ≠ .eof) :
    c.Passes [c.current] c.next := by
  obtain ⟨t, rest⟩ := c
  cases rest with
  | nil =>
    obtain ⟨u, hu, hk⟩ := hc
    obtain rfl : u = t := by simpa using hu
    exact absurd hk h
  | cons u us =>
    rw [next_of_ahead (d := ⟨u, us⟩) h rfl]
    constructor
    · rfl
    · simpa using h

end Cursor

/-- How a rule ends, and what a copy of it does on every list that agrees up to there, if it may
pass fewer than `limit` tokens. A result comes after at least `least` tokens; the line of a misfit
is one of some lines or that of a token up to the place where the rule stands. -/
inductive Halts {α : Type} (lines : Int → Prop) (limit least : Nat) (p q : Parse α) (c : Cursor) :
    Prop
  | ok (a : α) {d : Cursor} {front : List Token} (passes : c.Passes front d)
      (progress : least ≤ front.length) (run : p c = .ok (a, d))
      (same : front.length < limit → ∀ c' d' : Cursor, d'.current = d.current →
        c'.ahead = front ++ d'.ahead → q c' = .ok (a, d'))
  | misfit (cause : ParseFault.Cause) (line : Int) {d : Cursor} {front : List Token}
      (passes : c.Passes front d) (seen : lines line ∨ ∃ t ∈ front ++ [d.current], t.line = line)
      (run : p c = .error (.misfit cause line d))
      (same : front.length < limit → ∀ c' d' : Cursor, d'.current = d.current →
        c'.ahead = front ++ d'.ahead → q c' = .error (.misfit cause line d'))

/-- From a place with fewer than `size` tokens before the end token, a rule ends in one of these
ways. -/
def Along {α : Type} (lines : Int → Prop) (size limit least : Nat) (p q : Parse α) (c : Cursor) :
    Prop :=
  c.HasEnd → c.view.length ≤ size → Halts lines limit least p q c

section Along

variable {α β : Type} {lines : Int → Prop} {size limit least more : Nat} {p q : Parse α}
  {f g : α → Parse β} {c : Cursor}

theorem Halts.imp {lines' : Int → Prop} {limit' least' : Nat} (h : Halts lines limit least p q c)
    (hlines : ∀ l, lines l → lines' l) (hlimit : limit' ≤ limit) (hleast : least' ≤ least) :
    Halts lines' limit' least' p q c := by
  cases h with
  | ok a passes progress run same =>
    exact .ok a passes (Nat.le_trans hleast progress) run
      fun hlt => same (Nat.lt_of_lt_of_le hlt hlimit)
  | misfit cause line passes seen run same =>
    exact .misfit cause line passes (seen.imp_left (hlines _)) run
      fun hlt => same (Nat.lt_of_lt_of_le hlt hlimit)

theorem Along.imp {lines' : Int → Prop} {size' limit' least' : Nat}
    (h : Along lines size limit least p q c) (hlines : ∀ l, lines l → lines' l)
    (hsize : size' ≤ size) (hlimit : limit' ≤ limit) (hleast : least' ≤ least) :
    Along lines' size' limit' least' p q c :=
  fun hc hlen => (h hc (Nat.le_trans hlen hsize)).imp hlines hlimit hleast

/-- Nothing is asked of a copy that may pass no token. -/
theorem Along.of_zero (h : Along lines size 0 least p q c) (q' : Parse α) :
    Along lines size 0 least p q' c := by
  intro hc hlen
  cases h hc hlen with
  | ok a passes progress run _ => exact .ok a passes progress run fun hlt => absurd hlt (by omega)
  | misfit cause line passes seen run _ =>
    exact .misfit cause line passes seen run fun hlt => absurd hlt (by omega)

theorem along_nowhere : Along lines 0 limit least p q c := by
  intro _ hlen
  exact absurd (List.length_eq_zero_iff.mp (Nat.le_zero.mp hlen)) c.view_ne_nil

theorem along_pure (a : α) (c : Cursor) : Along lines size limit 0 (pure a) (pure a) c := by
  intro _ _
  refine .ok a (.refl c) (Nat.zero_le _) rfl fun _ c' d' _ hc' => ?_
  obtain ⟨t, ts⟩ := c'
  obtain ⟨u, us⟩ := d'
  obtain ⟨rfl, rfl⟩ := List.cons.inj hc'
  rfl

theorem along_fail (cause : ParseFault.Cause) {line : Int} (c : Cursor)
    (h : lines line ∨ c.current.line = line) :
    Along lines size limit least (fail cause line : Parse α) (fail cause line) c := by
  intro _ _
  refine .misfit cause line (.refl c) ?_ rfl fun _ c' d' _ hc' => ?_
  · simpa using h
  · obtain ⟨t, ts⟩ := c'
    obtain ⟨u, us⟩ := d'
    obtain ⟨rfl, rfl⟩ := List.cons.inj hc'
    rfl

/-- A rule behind another has as many tokens fewer as that one passes. -/
theorem along_bind (hp : Along lines size limit least p q c)
    (hf : ∀ a d, Along lines (size - least) (limit - least) more (f a) (g a) d) :
    Along lines size limit (least + more) (p >>= f) (q >>= g) c := by
  intro hc hlen
  cases hp hc hlen with
  | misfit cause line passes seen run same =>
    refine .misfit cause line passes seen ?_ fun hlt c' d' hd hc' => ?_
    · change (p c >>= fun x => f x.1 x.2) = _
      rw [run]
      rfl
    · change (q c' >>= fun x => g x.1 x.2) = _
      rw [same hlt c' d' hd hc']
      rfl
  | @ok a d front passes progress run same =>
    have hview := passes.view_length
    have hd : d.view.length ≤ size - least := by omega
    cases hf a d (passes.hasEnd hc) hd with
    | misfit cause line passes' seen run' same' =>
      refine .misfit cause line (passes.trans passes') ?_ ?_ fun hlt c' e' he hc' => ?_
      · refine seen.imp_right ?_
        rintro ⟨t, ht, hline⟩
        exact ⟨t, by rw [List.append_assoc]; exact List.mem_append_right _ ht, hline⟩
      · rw [bind_of_ok run, run']
      · rw [List.length_append] at hlt
        obtain ⟨d', hd', hahead⟩ := passes'.exists_same he
        rw [List.append_assoc, ← hahead] at hc'
        rw [bind_of_ok (same (by omega) c' d' hd' hc'), same' (by omega) d' e' he hahead]
    | ok b passes' progress' run' same' =>
      refine .ok b (passes.trans passes') ?_ ?_ fun hlt c' e' he hc' => ?_
      · rw [List.length_append]
        omega
      · rw [bind_of_ok run, run']
      · rw [List.length_append] at hlt
        obtain ⟨d', hd', hahead⟩ := passes'.exists_same he
        rw [List.append_assoc, ← hahead] at hc'
        rw [bind_of_ok (same (by omega) c' d' hd' hc'), same' (by omega) d' e' he hahead]

/-- A rule that passes a token, and one behind it. -/
theorem Along.then (hp : Along lines size limit 1 p q c)
    (hf : ∀ a d, Along lines (size - 1) (limit - 1) 0 (f a) (g a) d) :
    Along lines size limit 1 (p >>= f) (q >>= g) c :=
  along_bind hp hf

theorem Along.and (hp : Along lines size limit 0 p q c)
    (hf : ∀ a d, Along lines size limit 0 (f a) (g a) d) :
    Along lines size limit 0 (p >>= f) (q >>= g) c :=
  along_bind hp hf

theorem Along.weaken (h : Along lines size limit least p q c) : Along lines size limit 0 p q c :=
  h.imp (fun _ hl => hl) (Nat.le_refl _) (Nat.le_refl _) (Nat.zero_le _)

end Along

section Steps

variable {β : Type} {lines : Int → Prop} {size limit least : Nat} {c : Cursor}

/-- A look at the token is the same in both lists. -/
theorem along_peek {f g : Token → Parse β}
    (h : Along lines size limit least (f c.current) (g c.current) c) :
    Along lines size limit least (peek >>= f) (peek >>= g) c := by
  intro hc hlen
  cases h hc hlen with
  | ok a passes progress run same =>
    refine .ok a passes progress run fun hlt c' d' hd hc' => ?_
    rw [peek_bind, passes.current_eq hd hc']
    exact same hlt c' d' hd hc'
  | misfit cause line passes seen run same =>
    refine .misfit cause line passes seen run fun hlt c' d' hd hc' => ?_
    rw [peek_bind, passes.current_eq hd hc']
    exact same hlt c' d' hd hc'

theorem along_isAt {kind : Kind} {f g : Bool → Parse β}
    (h : Along lines size limit least (f (c.current.kind = kind)) (g (c.current.kind = kind)) c) :
    Along lines size limit least (isAt kind >>= f) (isAt kind >>= g) c :=
  along_peek (f := fun t => f (t.kind = kind)) (g := fun t => g (t.kind = kind)) h

theorem along_isAtWord {s : String} {f g : Bool → Parse β}
    (h : ∀ b, Along lines size limit least (f b) (g b) c) :
    Along lines size limit least (isAtWord s >>= f) (isAtWord s >>= g) c :=
  along_peek (f := fun t => f (t.kind = .ident && t.value = s))
    (g := fun t => g (t.kind = .ident && t.value = s)) (h _)

theorem along_ite {b : Prop} [Decidable b] {p p' q q' : Parse β}
    (hyes : Along lines size limit least p q c) (hno : Along lines size limit least p' q' c) :
    Along lines size limit least (if b then p else p') (if b then q else q') c := by
  split
  · exact hyes
  · exact hno

/-- A choice by the token that comes next. -/
theorem along_if (test : Token → Bool) {p p' q q' : Parse β}
    (hyes : test c.current = true → Along lines size limit least p q c)
    (hno : test c.current = false → Along lines size limit least p' q' c) :
    Along lines size limit least (peek >>= fun t => if test t = true then p else p')
      (peek >>= fun t => if test t = true then q else q') c := by
  refine along_peek ?_
  by_cases h : test c.current = true
  · rw [if_pos h, if_pos h]
    exact hyes h
  · rw [if_neg h, if_neg h]
    exact hno (Bool.eq_false_iff.mpr h)

theorem along_ifAtSymbol {s : String} {p p' q q' : Parse β}
    (hyes : c.current.kind = .symbol s → Along lines size limit least p q c)
    (hno : Along lines size limit least p' q' c) :
    Along lines size limit least (isAtSymbol s >>= fun b => if b = true then p else p')
      (isAtSymbol s >>= fun b => if b = true then q else q') c :=
  along_if (fun t => t.kind = .symbol s) (fun h => hyes (of_decide_eq_true h)) fun _ => hno

theorem along_ifAtWord {s : String} {p p' q q' : Parse β}
    (hyes : c.current.kind = .ident → Along lines size limit least p q c)
    (hno : Along lines size limit least p' q' c) :
    Along lines size limit least (isAtWord s >>= fun b => if b = true then p else p')
      (isAtWord s >>= fun b => if b = true then q else q') c := by
  refine along_if (fun t => t.kind = .ident && t.value = s) (fun h => hyes ?_) fun _ => hno
  exact of_decide_eq_true (Bool.and_eq_true_iff.mp h).1

theorem along_ifAtAny {ss : List String} {p p' q q' : Parse β}
    (hyes : c.current.kind ≠ .eof → Along lines size limit least p q c)
    (hno : Along lines size limit least p' q' c) :
    Along lines size limit least (isAtAny ss >>= fun b => if b = true then p else p')
      (isAtAny ss >>= fun b => if b = true then q else q') c := by
  refine along_if (fun t => ss.any fun s => t.kind = .symbol s) (fun h => hyes ?_) fun _ => hno
  obtain ⟨s, -, hs⟩ := List.any_eq_true.mp h
  rw [of_decide_eq_true hs]
  simp

/-- A token other than the end token is passed, and its line is known from there on. -/
theorem along_take {f g : Token → Parse β} (h : c.current.kind ≠ .eof)
    (hf : Along (fun l => lines l ∨ l = c.current.line) (size - 1) (limit - 1) 0 (f c.current)
      (g c.current) c.next) :
    Along lines size limit 1 (take >>= f) (take >>= g) c := by
  intro hc hlen
  have hnext := Cursor.passes_next hc h
  have hview := hnext.view_length
  have hcopy {front : List Token} {d c' d' : Cursor} (hpasses : c.next.Passes front d)
      (hd : d'.current = d.current) (hc' : c'.ahead = c.current :: front ++ d'.ahead) :
      (take >>= g) c' = g c.current c'.next ∧ c'.next.ahead = front ++ d'.ahead := by
    obtain ⟨n', hn', hahead⟩ := hpasses.exists_same hd
    have hcurrent : c'.current = c.current := (List.cons.inj hc').1
    have hnext' : c'.next = n' := by
      refine Cursor.next_of_ahead (hcurrent ▸ h) ?_
      rw [hc', hcurrent, hahead]
      rfl
    exact ⟨by rw [take_bind, hcurrent], by rw [hnext', hahead]⟩
  rw [List.length_singleton] at hview
  cases hf (hnext.hasEnd hc) (by omega) with
  | @ok a d front passes progress run same =>
    refine .ok a (hnext.trans passes) ?_ run fun hlt c' d' hd hc' => ?_
    · rw [List.length_append, List.length_singleton]
      omega
    · rw [List.length_append, List.length_singleton] at hlt
      obtain ⟨hrun, hahead⟩ := hcopy passes hd hc'
      rw [hrun]
      exact same (by omega) _ _ hd hahead
  | @misfit cause line d front passes seen run same =>
    refine .misfit cause line (hnext.trans passes) ?_ run fun hlt c' d' hd hc' => ?_
    · rcases seen with (hline | rfl) | ⟨t, ht, hline⟩
      · exact .inl hline
      · exact .inr ⟨c.current, by simp, rfl⟩
      · exact .inr ⟨t, List.mem_cons_of_mem _ ht, hline⟩
    · rw [List.length_append, List.length_singleton] at hlt
      obtain ⟨hrun, hahead⟩ := hcopy passes hd hc'
      rw [hrun]
      exact same (by omega) _ _ hd hahead

theorem along_advance {f g : Unit → Parse β} (h : c.current.kind ≠ .eof)
    (hf : ∀ d, Along lines (size - 1) (limit - 1) 0 (f ()) (g ()) d) :
    Along lines size limit 1 (advance >>= f) (advance >>= g) c :=
  along_take (f := fun _ => f ()) (g := fun _ => g ()) h
    ((hf c.next).imp (fun _ => .inl) (Nat.le_refl _) (Nat.le_refl _) (Nat.le_refl _))

/-- A token of a kind, and a rule behind it. -/
theorem along_expect {kind : Kind} {f g : Token → Parse β} (hkind : kind ≠ .eof)
    (hf : ∀ t d, Along (fun l => lines l ∨ l = t.line) (size - 1) (limit - 1) 0 (f t) (g t) d) :
    Along lines size limit 1 (expect kind >>= f) (expect kind >>= g) c := by
  have hexpect (f : Token → Parse β) : (expect kind >>= f) =
      (peek >>= fun t => if t.kind = kind then take >>= f
        else fail (.expected kind.name t) t.line) := by
    funext c
    rw [expect_bind, peek_bind]
    split <;> rfl
  rw [hexpect, hexpect]
  refine along_peek ?_
  split
  · rename_i h
    exact along_take (h ▸ hkind) (hf _ _)
  · exact along_fail _ c (.inr rfl)

theorem along_expectSymbol {s : String} {f g : Unit → Parse β}
    (hf : ∀ d, Along lines (size - 1) (limit - 1) 0 (f ()) (g ()) d) :
    Along lines size limit 1 (discard (expectSymbol s) >>= f) (discard (expectSymbol s) >>= g)
      c := by
  have hdiscard (f : Unit → Parse β) :
      (discard (expectSymbol s) >>= f) = (expect (.symbol s) >>= fun _ => f ()) := by
    funext c
    rw [discard_bind, expectSymbol]
  rw [hdiscard, hdiscard]
  exact along_expect (by simp)
    fun t d => (hf d).imp (fun _ => .inl) (Nat.le_refl _) (Nat.le_refl _) (Nat.le_refl _)

/-- A closing symbol. -/
theorem along_close (s : String) (a : β) (c : Cursor) :
    Along lines size limit 0 (discard (expectSymbol s) >>= fun _ => pure a)
      (discard (expectSymbol s) >>= fun _ => pure a) c :=
  along_expectSymbol (fun d => along_pure a d) |>.weaken

theorem along_expectWord {s : String} {f g : Unit → Parse β}
    (hf : ∀ d, Along lines (size - 1) (limit - 1) 0 (f ()) (g ()) d) :
    Along lines size limit 1 (discard (expectWord s) >>= f) (discard (expectWord s) >>= g) c := by
  have hdiscard (f : Unit → Parse β) : (discard (expectWord s) >>= f) =
      (peek >>= fun t => if t.kind = .ident ∧ t.value = s then advance >>= f
        else fail (.expectedWord s t) t.line) := by
    funext c
    rw [discard_expectWord_bind, peek_bind]
    split <;> rfl
  rw [hdiscard, hdiscard]
  refine along_peek ?_
  split
  · rename_i h
    exact along_advance (by simp [h.1]) hf
  · exact along_fail _ c (.inr rfl)

theorem along_name {f g : String → Parse β}
    (hf : ∀ x d, Along lines (size - 1) (limit - 1) 0 (f x) (g x) d) :
    Along lines size limit 1 (name >>= f) (name >>= g) c := by
  have hname (f : String → Parse β) : (name >>= f) =
      (expect .ident >>= fun t => if t.value ∈ keywords then fail (.keyword t.value) t.line
        else f t.value) := by
    funext c
    rw [name_bind, expect_bind]
    split
    · split <;> rfl
    · rfl
  rw [hname, hname]
  refine along_expect (by simp) fun t d => ?_
  split
  · exact along_fail _ d (.inl (.inr rfl))
  · exact (hf _ d).imp (fun _ => .inl) (Nat.le_refl _) (Nat.le_refl _) (Nat.le_refl _)

end Steps

def Advances {α : Type} (size limit least : Nat) (p q : Parse α) : Prop :=
  ∀ lines c, Along lines size limit least p q c

section Advances

variable {α β : Type} {size limit least : Nat}

theorem Advances.imp {p q : Parse α} (h : Advances size limit least p q) {size' limit' least' : Nat}
    (hsize : size' ≤ size) (hlimit : limit' ≤ limit) (hleast : least' ≤ least) :
    Advances size' limit' least' p q :=
  fun lines c => (h lines c).imp (fun _ hl => hl) hsize hlimit hleast

/-- A rule without a bound is at no place. -/
theorem advances_nowhere {p q : Parse α} : Advances (min 0 size) limit least p q := by
  intro lines c
  rw [Nat.zero_min]
  exact along_nowhere

/-- What copies with a bound that is not zero do is enough, if nothing is asked of one that is. -/
theorem advances_any (limit : Nat → Nat) {p : Parse α} {q : Nat → Parse α} (hzero : limit 0 = 0)
    (hsucc : ∀ k, Advances size (limit (k + 1)) least p (q (k + 1))) (k : Nat) :
    Advances size (limit k) least p (q k) := by
  cases k with
  | succ k => exact hsucc k
  | zero =>
    intro lines c
    rw [hzero]
    have hone := (hsucc 0 lines c).imp (fun _ hl => hl) (Nat.le_refl _) (Nat.zero_le _)
      (Nat.le_refl _)
    exact hone.of_zero _

theorem advances_name : Advances size limit 1 name name := by
  intro lines c
  have h : Along lines size limit 1 (name >>= pure) (name >>= pure) c :=
    along_name fun x d => along_pure x d
  rwa [bind_pure] at h

end Advances

section Items

variable {α : Type} {size limit : Nat} {item item' : Parse α}

theorem advances_moreItems (h : Advances size limit 1 item item') (K k : Nat) :
    Advances (min K (size + 1)) (min k (limit + 1)) 0 (moreItems item K) (moreItems item' k) := by
  induction K generalizing k with
  | zero => exact advances_nowhere
  | succ K ih =>
    refine advances_any (fun k => min k (limit + 1)) (Nat.zero_min _) (fun k lines c => ?_) k
    refine along_ifAtSymbol (fun hc => ?_) (along_pure _ _)
    refine (along_advance (by simp [hc]) fun d => ?_).weaken
    refine (Along.then (h.imp (by omega) (by omega) (by omega) lines d) fun first d => ?_).weaken
    exact Along.and ((ih k).imp (by omega) (by omega) (by omega) lines d)
      fun rest d => along_pure _ _

theorem advances_items {N n : Nat} (h : Advances (N - 1) (n - 1) 1 item item') (close : String) :
    Advances (N - 1) (n - 1) 1 (items N item close) (items n item' close) := by
  intro lines c
  refine along_ifAtSymbol (fun hc => along_advance (by simp [hc]) fun d => along_pure _ _) ?_
  refine Along.then (h lines c) fun first d => ?_
  refine Along.and ((advances_moreItems h N n).imp (by omega) (by omega) (by omega) lines d)
    fun rest d => ?_
  exact along_close _ _ d

end Items

section Expressions

variable {p q : Parse Node} {N n : Nat} (h : Advances (N - 1) (n - 1) 1 p q)

include h

theorem along_word (lines : Int → Prop) {c : Cursor} (hc : c.current.kind ≠ .eof) :
    Along lines N n 1 (word p N) (word q n) c := by
  refine along_peek ?_
  refine along_ite (along_advance hc fun d => along_pure _ _) ?_
  refine along_ite (along_advance hc fun d => along_pure _ _) ?_
  refine along_name fun x d => ?_
  refine along_ifAtSymbol (fun hd => ?_) (along_pure _ _)
  refine (along_advance (by simp [hd]) fun d => ?_).weaken
  exact (Along.then ((advances_items h ")").imp (by omega) (by omega) (by omega) lines d)
    fun args d => along_pure _ _).weaken

theorem advances_primary : Advances N n 1 (primary p N) (primary q n) := by
  intro lines c
  refine along_peek ?_
  cases hc : c.current.kind with
  | number => exact along_advance (by simp [hc]) fun d => along_pure _ _
  | string => exact along_advance (by simp [hc]) fun d => along_pure _ _
  | ident => exact along_word h lines (by simp [hc])
  | eof => exact along_fail _ c (.inr rfl)
  | symbol text =>
    have hne : c.current.kind ≠ .eof := by simp [hc]
    dsimp only
    refine along_ite ?_ (along_ite ?_ (along_fail _ c (.inr rfl)))
    · refine along_advance hne fun d => ?_
      refine (Along.then (h lines d) fun inner d => ?_).weaken
      exact along_close _ _ d
    · refine along_advance hne fun d => ?_
      exact (Along.then (advances_items h "]" lines d) fun elements d => along_pure _ _).weaken

theorem advances_indices (K k : Nat) (target : Node) :
    Advances (min K N) (min k n) 0 (indices p K target) (indices q k target) := by
  induction K generalizing k target with
  | zero => exact advances_nowhere
  | succ K ih =>
    refine advances_any (fun k => min k n) (q := fun k => indices q k target) (Nat.zero_min _)
      (fun k lines c => ?_) k
    refine along_ifAtSymbol (fun hc => ?_) (along_pure _ _)
    refine (along_advance (by simp [hc]) fun d => ?_).weaken
    refine (Along.then (h.imp (by omega) (by omega) (by omega) lines d) fun i d => ?_).weaken
    refine (along_expectSymbol fun d => ?_).weaken
    exact (ih k _).imp (by omega) (by omega) (by omega) lines d

omit h in
theorem along_update {lines : Int → Prop} {size limit : Nat} {operator : Token}
    (hline : lines operator.line) (operand : Node) (c : Cursor) :
    Along lines size limit 0 (update operator operand) (update operator operand) c := by
  unfold update
  split
  · exact along_pure _ _
  · exact along_fail _ c (.inl hline)

theorem advances_unary (K k : Nat) :
    Advances (min K N) (min k n) 1 (unary p N K) (unary q n k) := by
  induction K generalizing k with
  | zero => exact advances_nowhere
  | succ K ih =>
    refine advances_any (fun k => min k n) (Nat.zero_min _) (fun k lines c => ?_) k
    refine along_ifAtAny (fun hc => ?_) (along_ifAtAny (fun hc => ?_) ?_)
    · refine along_take hc ?_
      refine (Along.then ((ih k).imp (by omega) (by omega) (by omega) _ _)
        fun operand d => ?_).weaken
      exact along_pure _ _
    · refine along_take hc ?_
      refine (Along.then ((ih k).imp (by omega) (by omega) (by omega) _ _)
        fun operand d => ?_).weaken
      exact along_update (.inr rfl) _ _
    · refine Along.then ((advances_primary h).imp (by omega) (by omega) (by omega) lines c)
        fun first d => ?_
      refine Along.and ((advances_indices h N n first).imp (by omega) (by omega) (by omega) lines d)
        fun operand d => ?_
      refine along_ifAtAny (fun hd => ?_) (along_pure _ _)
      exact (along_take hd (along_update (.inr rfl) _ _)).weaken

omit h in
theorem advances_chain {size limit : Nat} (h : Advances size limit 1 p q) (operators : List String)
    (K k : Nat) (left : Node) :
    Advances (min K (size + 1)) (min k (limit + 1)) 0 (chain p operators K left)
      (chain q operators k left) := by
  induction K generalizing k left with
  | zero => exact advances_nowhere
  | succ K ih =>
    refine advances_any (fun k => min k (limit + 1)) (q := fun k => chain q operators k left)
      (Nat.zero_min _) (fun k lines c => ?_) k
    refine along_ifAtAny (fun hc => ?_) (along_pure _ _)
    refine (along_take hc ?_).weaken
    refine (Along.then (h.imp (by omega) (by omega) (by omega) _ _) fun right d => ?_).weaken
    exact (ih k _).imp (by omega) (by omega) (by omega) _ _

omit h in
theorem advances_level (h : Advances N n 1 p q) (operators : List String) :
    Advances N n 1 (level N operators p) (level n operators q) := by
  intro lines c
  refine Along.then (h lines c) fun first d => ?_
  exact (advances_chain h operators N n first).imp (by omega) (by omega) (by omega) lines d

theorem advances_operand : Advances N n 1 (unary p N N) (unary q n n) :=
  (advances_unary h N n).imp (by omega) (by omega) (by omega)

theorem advances_multiplicative : Advances N n 1 (multiplicative p N) (multiplicative q n) :=
  advances_level (advances_operand h) _

theorem advances_additive : Advances N n 1 (additive p N) (additive q n) :=
  advances_level (advances_multiplicative h) _

theorem advances_comparison : Advances N n 1 (comparison p N) (comparison q n) :=
  advances_level (advances_additive h) _

theorem advances_logical : Advances N n 1 (logical p N) (logical q n) :=
  advances_level (advances_comparison h) _

theorem advances_assignment (K k : Nat) :
    Advances (min K N) (min k n) 1 (assignment p N K) (assignment q n k) := by
  induction K generalizing k with
  | zero => exact advances_nowhere
  | succ K ih =>
    refine advances_any (fun k => min k n) (Nat.zero_min _) (fun k lines c => ?_) k
    refine Along.then ((advances_logical h).imp (by omega) (by omega) (by omega) lines c)
      fun target d => ?_
    refine along_peek ?_
    split
    · exact along_pure _ _
    · rename_i symbol operator? hfind
      have hd : d.current.kind = .symbol symbol := by
        simpa using List.find?_some hfind
      split
      · refine (along_advance (by simp [hd]) fun d => ?_).weaken
        exact (Along.then ((ih k).imp (by omega) (by omega) (by omega) lines d)
          fun value d => along_pure _ _).weaken
      · exact along_fail _ d (.inr rfl)

end Expressions

/-- An expression never uses up a bound that is larger than the number of tokens by one. -/
theorem advances_expression (N n : Nat) :
    Advances (N - 1) (n - 1) 1 (expression N) (expression n) := by
  induction N generalizing n with
  | zero => exact fun lines c => along_nowhere
  | succ N ih =>
    refine advances_any (fun n => n - 1) rfl (fun n => ?_) n
    exact (advances_assignment (ih n) N n).imp (by omega) (by omega) (by omega)

section Statements

variable {p q s t : Parse Node} {N n : Nat} (hp : Advances (N - 1) (n - 1) 1 p q)
  (hs : Advances (N - 2) (n - 2) 1 s t)

theorem advances_endOfExpression {size limit : Nat} :
    Advances size limit 0 endOfExpression endOfExpression := by
  intro lines c
  refine along_ifAtSymbol (fun hc => ?_) ?_
  · have h : Along lines size limit 1 (advance >>= pure) (advance >>= pure) c :=
      along_advance (by simp [hc]) fun d => along_pure _ _
    rw [bind_pure] at h
    exact h.weaken
  · refine along_isAt (along_isAt (along_ite ?_ ?_))
    · exact along_pure _ _
    · have h : Along lines size limit 1 (discard (expectSymbol ";") >>= pure)
          (discard (expectSymbol ";") >>= pure) c := along_expectSymbol fun d => along_pure _ _
      rw [bind_pure] at h
      exact h.weaken

section Blocks

include hs

theorem advances_blockRest (K k : Nat) :
    Advances (min K (N - 2)) (min k (n - 2)) 1 (blockRest s K) (blockRest t k) := by
  induction K generalizing k with
  | zero => exact advances_nowhere
  | succ K ih =>
    refine advances_any (fun k => min k (n - 2)) (Nat.zero_min _) (fun k lines c => ?_) k
    refine along_ifAtSymbol (fun hc => along_advance (by simp [hc]) fun d => along_pure _ _) ?_
    refine along_if (fun t => t.kind = .eof) (fun _ => ?_) fun _ => ?_
    · exact along_peek (along_fail _ c (.inr rfl))
    · refine Along.then (hs.imp (by omega) (by omega) (by omega) lines c) fun first d => ?_
      exact (Along.then ((ih k).imp (by omega) (by omega) (by omega) lines d)
        fun rest d => along_pure _ _).weaken

theorem advances_block : Advances (N - 1) (n - 1) 1 (block s N) (block t n) := by
  intro lines c
  refine along_expectSymbol fun d => ?_
  exact (Along.then ((advances_blockRest hs N n).imp (by omega) (by omega) (by omega) lines d)
    fun statements d => along_pure _ _).weaken

theorem advances_funcDecl : Advances (N - 1) (n - 1) 1 (funcDecl s N) (funcDecl t n) := by
  intro lines c
  refine along_expectWord fun d => ?_
  refine (along_name fun x d => ?_).weaken
  refine (along_expectSymbol fun d => ?_).weaken
  have hitems : Advances (N - 1) (n - 1) 1 (items N name ")") (items n name ")") :=
    advances_items advances_name ")"
  refine (Along.then (hitems.imp (by omega) (by omega) (by omega) lines d)
    fun params d => ?_).weaken
  exact (Along.then ((advances_block hs).imp (by omega) (by omega) (by omega) lines d)
    fun body d => along_pure _ _).weaken

end Blocks

section Declarations

include hp

theorem advances_varDecl : Advances (N - 1) (n - 1) 1 (varDecl p) (varDecl q) := by
  intro lines c
  refine along_expect (by simp) fun keyword d => ?_
  refine (along_name fun x d => ?_).weaken
  refine along_ifAtSymbol (fun hd => ?_) ?_
  · have hne : d.current.kind ≠ .eof := by simp [hd]
    refine (along_advance hne fun d => ?_).weaken
    exact (Along.then (hp.imp (by omega) (by omega) (by omega) _ d)
      fun value d => along_close _ _ d).weaken
  · refine along_ite ?_ ?_
    · exact Along.and (along_fail _ d (.inl (.inr rfl))) fun value d => along_close _ _ d
    · exact Along.and (along_pure _ d) fun value d => along_close _ _ d

theorem advances_condition : Advances (N - 1) (n - 1) 1 (condition p) (condition q) := by
  intro lines c
  refine along_expectSymbol fun d => ?_
  refine (Along.then (hp.imp (by omega) (by omega) (by omega) lines d) fun inner d => ?_).weaken
  exact along_close _ _ d

theorem advances_forInit : Advances (N - 1) (n - 1) 1 (forInit p) (forInit q) := by
  intro lines c
  refine along_isAtWord fun b => along_isAtWord fun b' => ?_
  refine along_ite (advances_varDecl hp lines c) ?_
  refine Along.then (hp lines c) fun init d => ?_
  exact along_close _ _ d

theorem advances_returnStmt : Advances (N - 1) (n - 1) 1 (returnStmt p) (returnStmt q) := by
  intro lines c
  refine along_expectWord fun d => ?_
  refine along_ifAtSymbol (fun hd => ?_) ?_
  · have hne : d.current.kind ≠ .eof := by simp [hd]
    refine (along_advance hne fun d => ?_).weaken
    exact along_pure _ _
  · refine (Along.then (hp.imp (by omega) (by omega) (by omega) lines d) fun value d => ?_).weaken
    exact along_close _ _ d

theorem advances_expressionStmt :
    Advances (N - 1) (n - 1) 1 (expressionStmt p) (expressionStmt q) := by
  intro lines c
  refine Along.then (hp lines c) fun value d => ?_
  exact Along.and (advances_endOfExpression lines d) fun _ d => along_pure _ _

end Declarations

theorem advances_deleteStmt {size limit : Nat} : Advances size limit 1 deleteStmt deleteStmt := by
  intro lines c
  refine along_expectWord fun d => ?_
  refine (along_name fun x d => ?_).weaken
  exact along_close _ _ d

include hp hs

theorem advances_ifStmt : Advances (N - 1) (n - 1) 1 (ifStmt p s N) (ifStmt q t n) := by
  intro lines c
  refine along_expectWord fun d => ?_
  refine (Along.then ((advances_condition hp).imp (by omega) (by omega) (by omega) lines d)
    fun condition d => ?_).weaken
  refine (Along.then ((advances_block hs).imp (by omega) (by omega) (by omega) lines d)
    fun thenBlock d => ?_).weaken
  refine along_ifAtWord (fun hd => ?_)
    (Along.and (along_pure _ d) fun elseBlock d => along_pure _ _)
  have hne : d.current.kind ≠ .eof := by simp [hd]
  refine (along_advance hne fun d => ?_).weaken
  exact (Along.then ((advances_block hs).imp (by omega) (by omega) (by omega) lines d)
    fun elseBlock d => along_pure _ _).weaken

theorem advances_whileStmt : Advances (N - 1) (n - 1) 1 (whileStmt p s N) (whileStmt q t n) := by
  intro lines c
  refine along_expectWord fun d => ?_
  refine (Along.then ((advances_condition hp).imp (by omega) (by omega) (by omega) lines d)
    fun condition d => ?_).weaken
  exact (Along.then ((advances_block hs).imp (by omega) (by omega) (by omega) lines d)
    fun body d => along_pure _ _).weaken

theorem advances_forStmt : Advances (N - 1) (n - 1) 1 (forStmt p s N) (forStmt q t n) := by
  intro lines c
  refine along_expectWord fun d => ?_
  refine (along_expectSymbol fun d => ?_).weaken
  refine (Along.then ((advances_forInit hp).imp (by omega) (by omega) (by omega) lines d)
    fun init d => ?_).weaken
  refine (Along.then (hp.imp (by omega) (by omega) (by omega) lines d) fun condition d => ?_).weaken
  refine (along_expectSymbol fun d => ?_).weaken
  refine (Along.then (hp.imp (by omega) (by omega) (by omega) lines d) fun update d => ?_).weaken
  refine (along_expectSymbol fun d => ?_).weaken
  exact (Along.then ((advances_block hs).imp (by omega) (by omega) (by omega) lines d)
    fun body d => along_pure _ _).weaken

theorem advances_statementWith :
    Advances (N - 1) (n - 1) 1 (statementWith p s N) (statementWith q t n) := by
  intro lines c
  refine along_peek ?_
  cases hc : c.current.kind with
  | ident =>
    dsimp only
    refine along_ite (advances_varDecl hp lines c) ?_
    refine along_ite (advances_funcDecl hs lines c) ?_
    refine along_ite (advances_ifStmt hp hs lines c) ?_
    refine along_ite (advances_whileStmt hp hs lines c) ?_
    refine along_ite (advances_forStmt hp hs lines c) ?_
    refine along_ite (advances_returnStmt hp lines c) ?_
    exact along_ite (advances_deleteStmt lines c) (advances_expressionStmt hp lines c)
  | symbol text =>
    dsimp only
    refine along_ite (advances_block hs lines c) (along_ite ?_ (advances_expressionStmt hp lines c))
    exact along_advance (by simp [hc]) fun d => along_pure _ _
  | _ => exact advances_expressionStmt hp lines c

end Statements

/-- A statement never uses up a bound that is larger than the number of tokens by two. -/
theorem advances_statement (N n : Nat) :
    Advances (N - 2) (n - 2) 1 (statement N) (statement n) := by
  induction N generalizing n with
  | zero => exact fun lines c => along_nowhere
  | succ N ih =>
    refine advances_any (fun n => n - 2) rfl (fun n => ?_) n
    exact advances_statementWith (advances_expression N n) (ih n)

theorem advances_statements {s t : Parse Node} {size limit : Nat} (h : Advances size limit 1 s t)
    (K k : Nat) : Advances (min K size) (min k limit) 0 (statements s K) (statements t k) := by
  induction K generalizing k with
  | zero => exact advances_nowhere
  | succ K ih =>
    refine advances_any (fun k => min k limit) (Nat.zero_min _) (fun k lines c => ?_) k
    refine along_if (fun t => t.kind = .eof) (fun _ => along_pure _ _) fun _ => ?_
    refine (Along.then (h.imp (by omega) (by omega) (by omega) lines c) fun first d => ?_).weaken
    exact Along.and ((ih k).imp (by omega) (by omega) (by omega) lines d)
      fun rest d => along_pure _ _

theorem advances_program (N n : Nat) : Advances (N - 2) (n - 2) 0 (program N) (program n) := by
  intro lines c
  refine Along.and ((advances_statements (advances_statement N n) N n).imp (by omega) (by omega)
    (by omega) lines c) fun body d => along_pure _ _

end Script.Parse
