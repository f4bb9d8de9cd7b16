import Script.Proofs.Ensuring
import Script.Proofs.SourceTexts

/-!
# Counters

A function that is made in a call keeps the scope of that call. So functions from several calls of
one function count apart, each in its own scope, and a call of one of them changes no other count.
-/
namespace Script

open Run Evaluate

/-- The body of `inc`: it steps the count up and returns it. -/
def incBody : Node :=
  .block (.list [.unaryOp (.text "++") (.identifier (.text "c")),
    .returnStmt (.identifier (.text "c"))])

/-- The body of `counter`: it returns a function that counts on from zero. -/
def counterBody : Node :=
  .block (.list [.varDecl (.text "c") (.numberLiteral (.text (toString 0))) (.boolean false),
    .funcDecl (.text "inc") (.list []) incBody, .returnStmt (.identifier (.text "inc"))])

def counterTree : Node := .funcDecl (.text "counter") (.list []) counterBody

def makeTree (x : String) : Node :=
  .varDecl (.text x) (.call (.text "counter") (.list [])) (.boolean false)

def useTree (x : String) : Node := .call (.text x) (.list [])

/-- In the root scope `x` is a counter that has come to `k`, and keeps it in the scope `o`. -/
structure CountsIn (f : Forest) (x : String) (o : ScopeId) (k : Nat) : Prop where
  inner : Forest.root < o
  bound : ∃ i, f.at? Forest.root (.word x) =
    some ⟨.word x, .function i (.word "inc") (.list []) incBody o, .variable⟩
  count : f.at? o (.word "c") = some ⟨.word "c", .number (toString k), .variable⟩

/-- A name that neither the function nor the library takes in the root scope. -/
def Unused (x : String) : Prop := x ≠ "counter" ∧ Machine.isBuiltIn (.word x) = false

instance : DecidablePred Unused := fun x =>
  inferInstanceAs (Decidable (x ≠ "counter" ∧ Machine.isBuiltIn (.word x) = false))

/-- The root scope has the function and the counters, each with a scope of its own, and the names
that are left are free. -/
structure Counters (owner : String → ScopeId) (xs : List String) (count : String → Nat)
    (f : Forest) : Prop where
  function : ∃ i, f.at? Forest.root (.word "counter") = some
    ⟨.word "counter", .function i (.word "counter") (.list []) counterBody Forest.root, .function⟩
  each : ∀ x ∈ xs, CountsIn f x (owner x) (count x)
  apart : ∀ x ∈ xs, ∀ y ∈ xs, owner x = owner y → x = y
  free : ∀ x, x ∉ xs → Unused x → f.at? Forest.root (.word x) = none

variable {owner : String → ScopeId} {xs : List String} {count : String → Nat} {f : Forest}
  {w : Scene} {depth : Nat}

/-- A counter stays where it is if its name and its count stay. -/
theorem CountsIn.congr {g : Forest} {x : String} {o : ScopeId} {k : Nat} (h : CountsIn f x o k)
    (hbound : g.at? Forest.root (.word x) = f.at? Forest.root (.word x))
    (hcount : g.at? o (.word "c") = f.at? o (.word "c")) : CountsIn g x o k :=
  ⟨h.inner, h.bound.imp fun _ => hbound.trans, hcount.trans h.count⟩

theorem Counters.define (hf : ∀ x, Unused x → f.at? Forest.root (.word x) = none)
    (hroot : Forest.root < f.scopes.size) (i : Identity) :
    Counters (fun _ => Forest.root) [] (fun _ => 0) (f.modifyAt Forest.root
      (·.bind ⟨.word "counter", .function i (.word "counter") (.list []) counterBody Forest.root,
        .function⟩)) := by
  refine ⟨⟨i, ?_⟩, by simp, by simp, fun x _ hx => ?_⟩
  · rw [Forest.at?_bind hroot, if_pos ⟨rfl, rfl⟩]
  · rw [Forest.at?_bind hroot, if_neg, hf x hx]
    simp [Name.same, hx.1.symm]

def incFunction (i : Identity) (o : ScopeId) : Value :=
  .function i (.word "inc") (.list []) incBody o

def Forest.afterCounter (f : Forest) (i : Identity) : Forest :=
  let o := f.scopes.size
  let declared := (Forest.mk (f.scopes.push (.inside (some root)))).modifyAt o
    (·.bind ⟨.word "c", .number (toString 0), .variable⟩)
  (declared.capture o).modifyAt o (·.bind ⟨.word "inc", incFunction i o, .function⟩)

theorem Forest.size_afterCounter (f : Forest) (i : Identity) :
    (f.afterCounter i).scopes.size = f.scopes.size + 1 := by
  simp [afterCounter, capture, scopes_size_captureFrom]

theorem Forest.at?_afterCounter_of_ne {a : ScopeId} (ha : a ≠ f.scopes.size) (i : Identity)
    (x : Name) : (f.afterCounter i).at? a x = f.at? a x := by
  rw [afterCounter, at?_modifyAt_of_ne ha, capture, at?_captureFrom, at?_modifyAt_of_ne ha,
    at?_push, if_neg ha]

/-- The new scope has the count. -/
theorem Forest.at?_afterCounter_self (f : Forest) (i : Identity) :
    (f.afterCounter i).at? f.scopes.size (.word "c") =
      some ⟨.word "c", .number (toString 0), .variable⟩ := by
  rw [afterCounter, at?_bind (by simp [capture, scopes_size_captureFrom]),
    if_neg (by simp [Name.same]), capture, at?_captureFrom, at?_bind (by simp), if_pos ⟨rfl, rfl⟩]

/-- A new counter is at zero, and has a scope that no other one has. -/
theorem Counters.make {x : String} (h : Counters owner xs count f) (hx : x ∉ xs) (hu : Unused x)
    (hzero : count x = 0) (i : Identity) :
    Counters (Function.update owner x f.scopes.size) (x :: xs) count
      ((f.afterCounter i).modifyAt Forest.root
        (·.bind ⟨.word x, incFunction i f.scopes.size, .variable⟩)) := by
  obtain ⟨i', hfunction⟩ := h.function
  have hroot := Forest.lt_size_of_at? hfunction
  have hlt {y : String} (hy : y ∈ xs) : owner y < f.scopes.size :=
    Forest.lt_size_of_at? (h.each y hy).count
  have hne {y : String} (hy : y ∈ xs) : y ≠ x := fun heq => hx (heq ▸ hy)
  have hbind := Forest.at?_bind (f := f.afterCounter i) (o := Forest.root)
    (by rw [Forest.size_afterCounter]; exact Nat.succ_pos _)
    ⟨.word x, incFunction i f.scopes.size, .variable⟩
  have hold {y : String} (hy : x ≠ y) : ((f.afterCounter i).modifyAt Forest.root
      (·.bind ⟨.word x, incFunction i f.scopes.size, .variable⟩)).at? Forest.root (.word y) =
        f.at? Forest.root (.word y) := by
    rw [hbind, if_neg (by simp [Name.same, hy]), Forest.at?_afterCounter_of_ne hroot.ne]
  refine ⟨⟨i', (hold hu.1).trans hfunction⟩, List.forall_mem_cons.mpr ⟨?_, fun y hy => ?_⟩,
    fun y hy z hz heq => ?_, fun y hy hfree => ?_⟩
  · rw [Function.update_self, hzero]
    refine ⟨hroot, ⟨i, ?_⟩, ?_⟩
    · rw [hbind, if_pos ⟨rfl, Name.same_refl _⟩]
      rfl
    · rw [hbind, if_neg fun h => hroot.ne' h.1]
      exact Forest.at?_afterCounter_self f i
  · rw [Function.update_of_ne (hne hy)]
    refine (h.each y hy).congr (hold (hne hy).symm) ?_
    rw [hbind, if_neg fun h' => (h.each y hy).inner.ne' h'.1,
      Forest.at?_afterCounter_of_ne (hlt hy).ne]
  · -- the scope of `x` is a new one, so that no other counter has it
    rcases List.mem_cons.mp hy with hyx | hy <;> rcases List.mem_cons.mp hz with hzx | hz
    · rw [hyx, hzx]
    · rw [hyx, Function.update_self, Function.update_of_ne (hne hz)] at heq
      exact absurd heq (hlt hz).ne'
    · rw [hzx, Function.update_self, Function.update_of_ne (hne hy)] at heq
      exact absurd heq (hlt hy).ne
    · rw [Function.update_of_ne (hne hy), Function.update_of_ne (hne hz)] at heq
      exact h.apart y hy z hz heq
  · simp only [List.mem_cons, not_or] at hy
    exact (hold (Ne.symm hy.1)).trans (h.free y hy.2 hfree)

/-- A call of a counter steps its own count up, and no other. -/
theorem Counters.use {x : String} (h : Counters owner xs count f) (hx : x ∈ xs) :
    Counters owner xs (Function.update count x (count x + 1))
      ((Forest.mk (f.scopes.push (.inside (some (owner x))))).modifyAt (owner x)
        (·.rebind (.word "c") (.number (toString (count x + 1))))) := by
  obtain ⟨i, hfunction⟩ := h.function
  have hpush {a : ScopeId} (ha : a < f.scopes.size) (n : Name) :
      (Forest.mk (f.scopes.push (.inside (some (owner x))))).at? a n = f.at? a n := by
    rw [Forest.at?_push, if_neg ha.ne]
  have hroot (n : Name) : ((Forest.mk (f.scopes.push (.inside (some (owner x))))).modifyAt (owner x)
      (·.rebind (.word "c") (.number (toString (count x + 1))))).at? Forest.root n =
        f.at? Forest.root n := by
    rw [Forest.at?_modifyAt_of_ne (h.each x hx).inner.ne, hpush (Forest.lt_size_of_at? hfunction)]
  refine ⟨⟨i, (hroot _).trans hfunction⟩, fun y hy => ?_, h.apart,
    fun y hy hfree => (hroot _).trans (h.free y hy hfree)⟩
  have hy' := h.each y hy
  by_cases hyx : y = x
  · subst hyx
    rw [Function.update_self]
    refine ⟨hy'.inner, hy'.bound.imp fun _ => (hroot _).trans, ?_⟩
    rw [Forest.at?_rebind, if_pos ⟨rfl, rfl⟩, hpush (Forest.lt_size_of_at? hy'.count), hy'.count]
    rfl
  · have hother : owner y ≠ owner x := fun heq => hyx (h.apart y hy x hx heq)
    rw [Function.update_of_ne hyx]
    refine hy'.congr (hroot _) ?_
    rw [Forest.at?_modifyAt_of_ne hother, hpush (Forest.lt_size_of_at? hy'.count)]

variable {passes : Nat}

theorem content_function (i : Identity) (x : String) (params body : Node) (closure : ScopeId) :
    ∃ t, (Value.function i (.word x) params body closure).content = .ok (.text t) :=
  ⟨_, Content.line_texts "" ["<function ", x, ">"]⟩

theorem ensures_counterTree (depth : Nat) (hroot : Forest.root < w.forest.scopes.size)
    (hcounter : w.forest.at? Forest.root (.word "counter") = none)
    (hf : ∀ x, Unused x → w.forest.at? Forest.root (.word x) = none) :
    Ensures (evaluate passes (depth + 1) counterTree Forest.root) w fun v w' =>
      (∃ t, v.content = .ok (.text t)) ∧
        Counters (fun _ => Forest.root) [] (fun _ => 0) w'.forest := by
  refine ensures_funcDecl [] hcounter fun i => ⟨content_function _ _ _ _ _, ?_⟩
  refine Counters.define (fun x hx => (Forest.at?_captureFrom _ _ _ _ _).trans (hf x hx)) ?_ i
  exact hroot.trans_eq (Forest.scopes_size_captureFrom _ _ _).symm

/-- A call of `counter` makes a new scope and a function in it. -/
theorem ensures_counterCall (h : Counters owner xs count w.forest) {Q : Value → Scene → Prop}
    (hQ : ∀ i, Q (incFunction i w.forest.scopes.size)
      { w with forest := w.forest.afterCounter i }) :
    Ensures (evaluate passes (depth + 3) (.call (.text "counter") (.list [])) Forest.root) w Q := by
  obtain ⟨i, hfunction⟩ := h.function
  refine ensures_call (.here hfunction) (ensures_pure ⟨⟨[], rfl⟩, ensures_invoke ?_⟩)
  have hnew := w.at?_inside_new Forest.root
  refine .bind (.discard (ensures_varDecl (ensures_number (by decide) ⟨hnew _, ⟨_, rfl⟩, ?_⟩)))
  refine .bind (.discard (ensures_funcDecl [] ?_ fun i => ?_))
  · rw [Forest.at?_bind (by simp [Scene.inside]), if_neg (by simp [Name.same]), hnew]
  · refine ensures_returnStmt (ensures_identifier
      (b := ⟨.word "inc", incFunction i w.forest.scopes.size, .function⟩) (.here ?_) (hQ i))
    rw [Forest.at?_bind (by simp [Scene.inside, Forest.capture, Forest.scopes_size_captureFrom]),
      if_pos ⟨rfl, rfl⟩]
    rfl

/-- A variable that is declared with a new counter. -/
theorem ensures_makeTree (depth : Nat) {x : String} (h : Counters owner xs count w.forest)
    (hx : x ∉ xs) (hu : Unused x) (hzero : count x = 0) :
    Ensures (evaluate passes (depth + 4) (makeTree x) Forest.root) w fun v w' =>
      (∃ t, v.content = .ok (.text t)) ∧
        Counters (Function.update owner x w.forest.scopes.size) (x :: xs) count w'.forest := by
  refine ensures_varDecl (ensures_counterCall h fun i => ⟨?_, content_function _ _ _ _ _,
    content_function _ _ _ _ _, h.make hx hu hzero i⟩)
  obtain ⟨j, hfunction⟩ := h.function
  have hroot := Forest.lt_size_of_at? hfunction
  exact (Forest.at?_afterCounter_of_ne hroot.ne i _).trans (h.free x hx hu)

/-- A call of a counter gives the next number. -/
theorem ensures_useTree (depth : Nat) {x : String} (h : Counters owner xs count w.forest)
    (hx : x ∈ xs) (hlimit : count x + 1 ≤ 2 ^ 53) :
    Ensures (evaluate passes (depth + 3) (useTree x) Forest.root) w fun v w' =>
      v = .number (toString (count x + 1)) ∧
        Counters owner xs (Function.update count x (count x + 1)) w'.forest := by
  obtain ⟨hinner, ⟨i, hbound⟩, hcount⟩ := h.each x hx
  refine ensures_call (.here hbound) (ensures_pure ⟨⟨[], rfl⟩, ensures_invoke ?_⟩)
  have hlt := Forest.lt_size_of_at? hcount
  have hnew := w.at?_inside_new (owner x) (.word "c")
  have hparent := w.parentOf?_inside (owner x)
  have hold := (Scene.at?_inside_of_lt hlt (owner x) (.word "c")).trans hcount
  refine .bind (.discard (ensures_stepUp (.out hnew hparent hlt (.here hold)) rfl rfl hlimit ?_))
  refine ensures_returnStmt (ensures_identifier (o := owner x)
    (b := ⟨.word "c", .number (toString (count x + 1)), .variable⟩) ?_ ⟨rfl, h.use hx⟩)
  refine .out ?_ ((Forest.sameChains_modifyAt _ _ ?_ _).trans hparent) hlt (.here ?_)
  · rw [Forest.at?_modifyAt_of_ne hlt.ne', hnew]
  · exact fun _ => rfl
  · rw [Forest.at?_rebind, if_pos ⟨rfl, rfl⟩, hold]
    rfl

def counterText : String :=
  "function counter() \x7b var c = 0; function inc() \x7b c++; return c; \x7d return inc; \x7d"

def makeText (x : String) : String := "var " ++ x ++ " = counter();"

def useText (x : String) : String := x ++ "();"

section Reading

open Grammar Token Printer

def incLexemes : List Lexeme :=
  [symbol "\x7b", word "c", symbol "++", symbol ";", word "return", word "c", symbol ";",
    symbol "\x7d"]

def counterLexemes : List Lexeme :=
  [word "function", word "counter", symbol "(", symbol ")", symbol "\x7b", word "var", word "c",
      symbol "=", (.number, toString 0), symbol ";", word "function", word "inc", symbol "(",
      symbol ")"] ++ incLexemes ++ [word "return", word "inc", symbol ";", symbol "\x7d"]

theorem return_derives {x : String} (hx : Node.ProperName x) (us : List Lexeme) :
    Derives .statement ([word "return", word x, symbol ";"] ++ us)
      (.returnStmt (.identifier (.text x))) us :=
  statement_derives (.returnValue (.identifier hx)) us

theorem incBody_derives (us : List Lexeme) : Derives .block (incLexemes ++ us) incBody us :=
  .block "\x7b" (.bodyMore (.ofExpression (stepAfter_derives (by decide) _) (.semicolon ";" _))
    (.bodyMore (return_derives (by decide) _) (.bodyEnd "\x7d" us)))

theorem counterTree_derives (us : List Lexeme) :
    Derives .statement (counterLexemes ++ us) counterTree us := by
  have hname {x : String} (hx : Node.ProperName x) : IsName x := hx.2
  have hcount : Node.Declaration (.varDecl (.text "c") (.numberLiteral (.text (toString 0)))
      (.boolean false)) :=
    .initialized false (by decide) (.number (Numeral.isNumeral_toString 0))
  refine .function "(" (hname (by decide)) (.noItems ")" _) (.block "\x7b" ?_)
  refine .bodyMore (statement_derives (.declaration hcount) _) ?_
  refine .bodyMore (.function "(" (hname (by decide)) (.noItems ")" _) (incBody_derives _)) ?_
  exact .bodyMore (return_derives (by decide) _) (.bodyEnd "\x7d" us)

theorem ofSource_counterText :
    Node.ofSource counterText = .ok (.program (.list [counterTree])) := by
  have hread : ReadsAs 1 counterText.toList counterLexemes :=
    readsAs_of_scan (by decide +kernel)
  refine Node.ofSource_of_derives hread (by simp [word, symbol, counterLexemes, incLexemes]) ?_
  exact .programMore (counterTree_derives _) (.programEnd "" [])

variable {x : String}

theorem ofSource_makeText (hx : Node.ProperName x) :
    Node.ofSource (makeText x) = .ok (.program (.list [makeTree x])) := by
  have hfront {rest : List Char} {xs : List Lexeme} (h : ∀ line, ReadsAs line rest xs) :
      ReadsAs 1 ("var ".toList ++ rest) ([word "var"] ++ xs) :=
    .prependBlank "var".toList h (by decide) rfl
  have hback (line : Int) : ReadsAs line " = counter();".toList
      [symbol "=", word "counter", symbol "(", symbol ")", symbol ";"] :=
    readsAs_of_scan rfl
  have hstop : ∀ c ∈ " = counter();".toList.head?, isWordPart c = false := stops_ahead rfl
  have hread := hfront fun _ => readsAs_word hx.1 hstop hback
  rw [← toList_append₃] at hread
  refine Node.ofSource_of_derives hread (by simp [word, symbol]) ?_
  have hcall : Node.Expression (.call (.text "counter") (.list [])) := .call (by decide) (by simp)
  exact .programMore (statement_derives (.declaration (.initialized false hx hcall)) _)
    (.programEnd "" [])

theorem ofSource_useText (hx : Node.ProperName x) :
    Node.ofSource (useText x) = .ok (.program (.list [useTree x])) := by
  have hback (line : Int) : ReadsAs line "();".toList [symbol "(", symbol ")", symbol ";"] :=
    readsAs_of_scan rfl
  have hstop : ∀ c ∈ "();".toList.head?, isWordPart c = false := stops_ahead rfl
  have hread : ReadsAs 1 (x.toList ++ "();".toList) _ := readsAs_word hx.1 hstop hback
  rw [← String.toList_append] at hread
  refine Node.ofSource_of_derives hread (by simp [symbol]) ?_
  exact .programMore (statement_derives (.expression (.call hx (List.forall_mem_nil _))) _)
    (.programEnd "" [])

end Reading

namespace Session

theorem yields_makeTrees {xs' : List String} (h : Counters owner xs' count w.forest)
    (hxs : xs.Nodup) (hdisjoint : ∀ x ∈ xs, x ∉ xs') (hunused : ∀ x ∈ xs, Unused x)
    (hzero : ∀ x ∈ xs, count x = 0) :
    Yields (xs.map makeTree) w fun vs w' => vs.length = xs.length ∧
      ∃ owner, Counters owner (xs.reverse ++ xs') count w'.forest := by
  induction xs generalizing w owner xs' with
  | nil => exact ⟨rfl, owner, h⟩
  | cons x xs ih =>
    rw [List.forall_mem_cons] at hdisjoint hunused hzero
    obtain ⟨hx, hxs⟩ := List.nodup_cons.mp hxs
    refine (ensures_makeTree 19996 h hdisjoint.1 hunused.1 hzero.1).mono ?_
    rintro v w' ⟨hv, h'⟩
    refine ⟨hv, fun es => ?_⟩
    have hfresh : ∀ y ∈ xs, y ∉ x :: xs' := by
      intro y hy
      rw [List.mem_cons, not_or]
      exact ⟨fun heq => hx (heq ▸ hy), hdisjoint.2 y hy⟩
    refine (ih (w := { w' with output := w'.output ++ es }) h' hxs hfresh hunused.2 hzero.2).mono ?_
    rintro vs w'' ⟨hvs, owner', h''⟩
    refine ⟨congrArg (· + 1) hvs, owner', ?_⟩
    simpa using h''

/-- What calls of counters give: each one how often its counter has been called by then. -/
def counted (count : String → Nat) (ys : List String) : List Value :=
  ys.mapIdx fun i y => .number (toString (count y + (ys.take (i + 1)).count y))

theorem counted_cons (count : String → Nat) (y : String) (ys : List String) :
    counted count (y :: ys) = .number (toString (count y + 1)) ::
      counted (Function.update count y (count y + 1)) ys := by
  rw [counted, List.mapIdx_cons, counted]
  congr 1
  · simp
  · congr 1
    funext i z
    by_cases hz : z = y
    · subst hz
      simp [Nat.add_assoc, Nat.add_comm 1]
    · simp [Function.update_of_ne hz, List.count_cons_of_ne (Ne.symm hz)]

theorem yields_useTrees {ys : List String} (h : Counters owner xs count w.forest)
    (hys : ∀ y ∈ ys, y ∈ xs) (hlimit : ∀ y ∈ ys, count y + ys.length ≤ 2 ^ 53) :
    Yields (ys.map useTree) w fun vs _ => vs = counted count ys := by
  induction ys generalizing w count with
  | nil => exact rfl
  | cons y ys ih =>
    rw [List.forall_mem_cons] at hys hlimit
    rw [List.length_cons] at hlimit
    refine (ensures_useTree 19997 h hys.1 (by omega)).mono ?_
    rintro _ w' ⟨rfl, h'⟩
    refine ⟨⟨_, rfl⟩, fun es => ?_⟩
    refine (ih (w := { w' with output := w'.output ++ es }) h' hys.2 fun z hz => ?_).mono ?_
    · by_cases hzy : z = y
      · subst hzy
        rw [Function.update_self]
        omega
      · rw [Function.update_of_ne hzy]
        have := hlimit.2 z hz
        omega
    · rintro vs _ rfl
      exact (counted_cons count y ys).symm

/-- The statements that make counters, once for each of `xs`, and call them as `ys` tells. -/
def counterTrees (xs ys : List String) : List Node :=
  counterTree :: (xs.map makeTree ++ ys.map useTree)

theorem yields_counterTrees {ys : List String} {w : Scene}
    (hroot : Forest.root < w.forest.scopes.size)
    (hcounter : w.forest.at? Forest.root (.word "counter") = none)
    (hfree : ∀ x, Unused x → w.forest.at? Forest.root (.word x) = none) (hxs : xs.Nodup)
    (hunused : ∀ x ∈ xs, Unused x) (hys : ∀ y ∈ ys, y ∈ xs) (hlength : ys.length ≤ 2 ^ 53) :
    Yields (counterTrees xs ys) w fun vs _ =>
      ∃ front, vs = front ++ counted (fun _ => 0) ys ∧ front.length = xs.length + 1 := by
  refine (ensures_counterTree 19999 hroot hcounter hfree).mono ?_
  rintro v w₁ ⟨hv, h₁⟩
  refine ⟨hv, fun es => yields_append.mpr ?_⟩
  refine (yields_makeTrees (w := { w₁ with output := w₁.output ++ es }) h₁ hxs (by simp) hunused
    fun _ _ => rfl).mono ?_
  rintro vs w₂ ⟨hvs, owner, h₂⟩
  refine (yields_useTrees h₂ (by simpa using hys) fun y _ => by simpa using hlength).mono ?_
  rintro _ - rfl
  exact ⟨v :: vs, rfl, congrArg (· + 1) hvs⟩

theorem flatMap_counterTexts {xs ys : List String} (hxs : ∀ x ∈ xs, Node.ProperName x)
    (hys : ∀ y ∈ ys, y ∈ xs) :
    (counterText :: (xs.map makeText ++ ys.map useText)).flatMap statementsRead =
      counterTrees xs ys := by
  have hmake : (xs.map makeText).flatMap statementsRead = xs.map makeTree := by
    rw [List.flatMap_map, List.map_eq_flatMap]
    refine List.flatMap_congr fun x hx => ?_
    rw [statementsRead, ofSource_makeText (hxs x hx)]
  have huse : (ys.map useText).flatMap statementsRead = ys.map useTree := by
    rw [List.flatMap_map, List.map_eq_flatMap]
    refine List.flatMap_congr fun y hy => ?_
    rw [statementsRead, ofSource_useText (hxs y (hys y hy))]
  rw [List.flatMap_cons, List.flatMap_append, hmake, huse, statementsRead, ofSource_counterText]
  rfl

/-- In a fresh session a name is free unless the library has it. -/
theorem at?_fresh_of_unused {x : String} (hx : Machine.isBuiltIn (.word x) = false)
    (ambient : Ambient) (debugLevel : Nat) (inputs : List String) :
    (Machine.fresh ambient debugLevel inputs).forest.at? Forest.root (.word x) = none := by
  change Library.bindings.find? (·.name.same (.word x)) = none
  simpa [Machine.isBuiltIn] using hx

/-- Counters count apart: whatever calls of other counters stand between, a call of a counter gives
how often that one has been called by then. It does not matter how the statements are spread over
the source texts of the session. -/
theorem counters_count_apart (ambient : Ambient) (debugLevel : Nat) (inputs : List String)
    (xs ys : List String) (hxs : xs.Nodup) (hnames : ∀ x ∈ xs, Node.ProperName x ∧ Unused x)
    (hys : ∀ y ∈ ys, y ∈ xs) (hlength : ys.length ≤ 2 ^ 53) (steps : List (Bool × String))
    (hread : ∀ s ∈ steps, ∃ p, Node.ofSource s.2 = .ok p)
    (hsteps : steps.flatMap (fun s => statementsRead s.2) =
      (counterText :: (xs.map makeText ++ ys.map useText)).flatMap statementsRead) :
    ∃ (vss : List (List Value)) (front : List Value),
      (outcomes (sources steps) (Machine.fresh ambient debugLevel inputs)).map (·.1) =
        vss.map .ok ∧
      front.length = xs.length + 1 ∧
      vss.flatten = front ++
        ys.mapIdx fun i y => .number (toString ((ys.take (i + 1)).count y)) := by
  rw [flatMap_counterTexts (fun x hx => (hnames x hx).1) hys] at hsteps
  have hyields := yields_counterTrees (w := (Machine.fresh ambient debugLevel inputs).scene)
    (Nat.one_pos) (at?_fresh_of_unused (by decide) ambient debugLevel inputs)
    (fun x hx => at?_fresh_of_unused hx.2 ambient debugLevel inputs) hxs
    (fun x hx => (hnames x hx).2) hys hlength
  rw [← hsteps] at hyields
  obtain ⟨vss, hvss, -, front, hvalues, hfront⟩ := hyields.outcomes hread
  refine ⟨vss, front, hvss, hfront, ?_⟩
  simpa [counted] using hvalues

theorem counters_count_apart_two : ∃ (vss : List (List Value)) (front : List Value),
    (outcomes (sources [(false, counterText), (false, makeText "a"), (true, makeText "b"),
      (true, useText "a"), (true, useText "b"), (false, useText "a")])
      (Machine.fresh (.seeded 0 0) 0 [])).map (·.1) = vss.map .ok ∧
    front.length = 3 ∧ vss.flatten = front ++ [.number "1", .number "1", .number "2"] := by
  have ha : Node.ProperName "a" := by decide
  have hb : Node.ProperName "b" := by decide
  have h := counters_count_apart (.seeded 0 0) 0 [] ["a", "b"] ["a", "b", "a"] (by decide)
    (by decide) (by decide) (by decide)
    [(false, counterText), (false, makeText "a"), (true, makeText "b"), (true, useText "a"),
      (true, useText "b"), (false, useText "a")] ?_ ?_
  · exact h
  · simp only [List.forall_mem_cons]
    exact ⟨⟨_, ofSource_counterText⟩, ⟨_, ofSource_makeText ha⟩, ⟨_, ofSource_makeText hb⟩,
      ⟨_, ofSource_useText ha⟩, ⟨_, ofSource_useText hb⟩, ⟨_, ofSource_useText ha⟩,
      List.forall_mem_nil _⟩
  · simp only [List.flatMap_cons, List.flatMap_nil, List.map_cons, List.map_nil, List.cons_append,
      List.nil_append]

end Session
end Script
