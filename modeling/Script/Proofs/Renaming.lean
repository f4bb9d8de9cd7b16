import Script.Proofs.Progress

/-!
# Renaming

A renaming gives every name of a program another one, and no two names the same. Trees, values and
scopes are renamed by renaming the names in them. Operations on values do not look at names, and
looking up, binding and deleting go on in the renamed scopes as before.
-/
namespace Script

/-- A map of names to names that has no name twice as its value. -/
structure Renaming where
  image : String → String
  proper : ∀ {x}, Node.ProperName x → Node.ProperName (image x)
  distinct : ∀ {x y}, Node.ProperName x → Node.ProperName y → image x = image y → x = y

namespace Renaming

/-- What a name becomes. A text that is no name stays as it is. -/
def apply (r : Renaming) (x : String) : String := if Node.ProperName x then r.image x else x

instance : CoeFun Renaming fun _ => String → String := ⟨apply⟩

variable (r : Renaming)

theorem apply_of_properName {x : String} (hx : Node.ProperName x) : r x = r.image x := if_pos hx

theorem apply_of_not_properName {x : String} (hx : ¬ Node.ProperName x) : r x = x := if_neg hx

theorem properName {x : String} (hx : Node.ProperName x) : Node.ProperName (r x) := by
  rw [r.apply_of_properName hx]
  exact r.proper hx

theorem properName_iff {x : String} : Node.ProperName (r x) ↔ Node.ProperName x := by
  refine ⟨fun h => ?_, r.properName⟩
  by_contra hx
  rw [r.apply_of_not_properName hx] at h
  exact hx h

theorem injective : Function.Injective r := by
  intro x y h
  have hiff : Node.ProperName x ↔ Node.ProperName y := by
    rw [← r.properName_iff, h, r.properName_iff]
  by_cases hx : Node.ProperName x
  · have hy := hiff.mp hx
    rw [r.apply_of_properName hx, r.apply_of_properName hy] at h
    exact r.distinct hx hy h
  · have hy := mt hiff.mpr hx
    rwa [r.apply_of_not_properName hx, r.apply_of_not_properName hy] at h

end Renaming

namespace Node

def renameName (r : Renaming) : Node → Node
  | .text x => .text (r x)
  | n => n

def renameParams (r : Renaming) : Node → Node
  | .list items => .list (items.map (renameName r))
  | n => n

mutual

def rename (r : Renaming) : Node → Node
  | .list items => .list (renameAll r items)
  | .program body => .program (rename r body)
  | .identifier name => .identifier (renameName r name)
  | .varDecl name value isConst => .varDecl (renameName r name) (rename r value) isConst
  | .assign name value => .assign (renameName r name) (rename r value)
  | .unaryOp op operand => .unaryOp op (rename r operand)
  | .binaryOp op left right => .binaryOp op (rename r left) (rename r right)
  | .block statements => .block (rename r statements)
  | .ifStmt condition thenBlock elseBlock =>
      .ifStmt (rename r condition) (rename r thenBlock) (rename r elseBlock)
  | .whileStmt condition body => .whileStmt (rename r condition) (rename r body)
  | .forStmt init condition update body =>
      .forStmt (rename r init) (rename r condition) (rename r update) (rename r body)
  | .funcDecl name params body =>
      .funcDecl (renameName r name) (renameParams r params) (rename r body)
  | .call name args => .call (renameName r name) (rename r args)
  | .returnStmt value => .returnStmt (rename r value)
  | .deleteStmt name => .deleteStmt (renameName r name)
  | .arrayLiteral elements => .arrayLiteral (rename r elements)
  | .index target i => .index (rename r target) (rename r i)
  | n => n

def renameAll (r : Renaming) : List Node → List Node
  | [] => []
  | item :: rest => rename r item :: renameAll r rest

end

mutual

def functions : Node → List String
  | .list items => functionsAll items
  | .program body => functions body
  | .block statements => functions statements
  | .ifStmt _ thenBlock elseBlock => functions thenBlock ++ functions elseBlock
  | .whileStmt _ body => functions body
  | .forStmt _ _ _ body => functions body
  | .funcDecl name _ body => name.text?.toList ++ functions body
  | _ => []

def functionsAll : List Node → List String
  | [] => []
  | item :: rest => functions item ++ functionsAll rest

end

variable {r : Renaming}

@[simp] theorem renameAll_eq_map (ns : List Node) : renameAll r ns = ns.map (rename r) := by
  induction ns with
  | nil => rfl
  | cons n ns ih => simp [renameAll, ih]

@[simp] theorem functionsAll_eq_flatMap (ns : List Node) :
    functionsAll ns = ns.flatMap functions := by
  induction ns with
  | nil => rfl
  | cons n ns ih => simp [functionsAll, ih]

theorem renameParams_texts (ps : List String) :
    renameParams r (.list (ps.map .text)) = .list ((ps.map r).map .text) := by
  simp [renameParams, renameName]

theorem Expression.rename {e : Node} (h : e.Expression) : (e.rename r).Expression := by
  induction h with
  | number hs => exact .number hs
  | string hs => exact .string hs
  | boolean b => exact .boolean b
  | null => exact .null
  | identifier hx => exact .identifier (r.properName hx)
  | assign hx _ ih => exact .assign (r.properName hx) ih
  | negation hs _ ih => exact .negation hs ih
  | step hs hx => exact .step hs (r.properName hx)
  | binary hs _ _ ih₁ ih₂ => exact .binary hs ih₁ ih₂
  | call hx _ ih =>
    simp only [Node.rename, renameAll_eq_map]
    exact .call (r.properName hx) (List.forall_mem_map.mpr ih)
  | array _ ih =>
    simp only [Node.rename, renameAll_eq_map]
    exact .array (List.forall_mem_map.mpr ih)
  | index _ _ ih₁ ih₂ => exact .index ih₁ ih₂

theorem Declaration.rename {e : Node} (h : e.Declaration) : (e.rename r).Declaration := by
  cases h with
  | uninitialized hx => exact .uninitialized (r.properName hx)
  | initialized b hx he => exact .initialized b (r.properName hx) he.rename

theorem Statement.rename {n : Node} (h : n.Statement) : (n.rename r).Statement := by
  induction h with
  | expression he => exact .expression he.rename
  | declaration hd => exact .declaration hd.rename
  | block _ ih =>
    simp only [Node.rename, renameAll_eq_map]
    exact .block (List.forall_mem_map.mpr ih)
  | empty => exact .empty
  | function hx hp _ ih =>
    simp only [Node.rename, renameAll_eq_map, renameParams_texts]
    refine .function (r.properName hx) ?_ (List.forall_mem_map.mpr ih)
    exact List.forall_mem_map.mpr fun p hp' => r.properName (hp p hp')
  | ifThen he _ ih =>
    simp only [Node.rename, renameAll_eq_map]
    exact .ifThen he.rename (List.forall_mem_map.mpr ih)
  | ifElse he _ _ ih₁ ih₂ =>
    simp only [Node.rename, renameAll_eq_map]
    exact .ifElse he.rename (List.forall_mem_map.mpr ih₁) (List.forall_mem_map.mpr ih₂)
  | «while» he _ ih =>
    simp only [Node.rename, renameAll_eq_map]
    exact .while he.rename (List.forall_mem_map.mpr ih)
  | «for» hi he hn _ ih =>
    simp only [Node.rename, renameAll_eq_map]
    exact .for (hi.imp Declaration.rename Expression.rename) he.rename hn.rename
      (List.forall_mem_map.mpr ih)
  | returnNothing => exact .returnNothing
  | returnValue he => exact .returnValue he.rename
  | delete hx => exact .delete (r.properName hx)

theorem WellFormed.rename {p : Node} (h : p.WellFormed) : (p.rename r).WellFormed := by
  obtain ⟨hs⟩ := h
  simp only [Node.rename, renameAll_eq_map]
  exact .program (List.forall_mem_map.mpr fun s hs' => (hs s hs').rename)

end Node

namespace Value

mutual

def rename (r : Renaming) : Value → Value
  | .array i items => .array i (renameAll r items)
  | .function i name params body closure =>
      .function i name (params.renameParams r) (body.rename r) closure
  | v => v

def renameAll (r : Renaming) : List Value → List Value
  | [] => []
  | item :: rest => rename r item :: renameAll r rest

end

variable {r : Renaming}

@[simp] theorem renameAll_eq_map (vs : List Value) : renameAll r vs = vs.map (rename r) := by
  induction vs with
  | nil => rfl
  | cons v vs ih => simp [renameAll, ih]

mutual

/-- What a value is printed as does not tell how things are named. -/
@[simp] theorem content_rename : (v : Value) → (v.rename r).content = v.content
  | .array _ items => by simp only [rename, renameAll_eq_map, content, contents_rename items]
  | .number _ | .string _ | .boolean _ | .null | .function .. | .native _ => rfl

@[simp] theorem contents_rename : (vs : List Value) → contents (vs.map (rename r)) = contents vs
  | [] => rfl
  | v :: rest => by simp only [List.map_cons, contents, content_rename v, contents_rename rest]

end

@[simp] theorem isNull_rename (v : Value) : (v.rename r).isNull = v.isNull := by cases v <;> rfl

@[simp] theorem kindName_rename (v : Value) : (v.rename r).kindName = v.kindName := by
  cases v <;> rfl

@[simp] theorem toDouble_rename (v : Value) : (v.rename r).toDouble = v.toDouble := by
  cases v <;> rfl

@[simp] theorem isFalsy_rename (v : Value) : (v.rename r).isFalsy = v.isFalsy := by
  cases v <;> rfl

@[simp] theorem holds_rename (v : Value) : (v.rename r).holds = v.holds := by
  simp only [holds, content_rename]

@[simp] theorem same_rename (v w : Value) : same (v.rename r) (w.rename r) = same v w := by
  cases v <;> cases w <;> rfl

theorem part_rename (i : Nat) (v : Value) : (v.rename r).part i = (v.part i).map (rename r) := by
  cases v with
  | array id items =>
    simp only [rename, renameAll_eq_map, part, List.getElem?_map]
    cases items[i]? <;> rfl
  | string c =>
    simp only [rename, part]
    cases Content.part? i c with
    | error fault => rfl
    | ok part? => cases part? <;> rfl
  | _ => rfl

theorem get_rename (v i : Value) : (v.rename r).get (i.rename r) = (v.get i).map (rename r) := by
  simp only [get, toDouble_rename, part_rename]
  cases i.toDouble with
  | error fault => rfl
  | ok x =>
    simp only [ok_bind]
    split
    · rfl
    · rfl
    · split <;> rfl

end Value

namespace Operator

variable {r : Renaming} (a b : Value)

theorem add_rename : add (a.rename r) (b.rename r) = add a b := by
  have ha := Value.content_rename (r := r) a
  have hb := Value.content_rename (r := r) b
  cases a <;> cases b <;> simp only [Value.rename] at ha hb ⊢ <;> simp only [add, ha, hb]

theorem subtract_rename : subtract (a.rename r) (b.rename r) = subtract a b := by
  cases a <;> cases b <;> rfl

theorem multiply_rename : multiply (a.rename r) (b.rename r) = multiply a b := by
  cases a <;> cases b <;> rfl

theorem copies?_rename (operator : String) :
    copies? operator (a.rename r) (b.rename r) = copies? operator a b := by
  cases a <;> cases b <;> rfl

theorem divide_rename (i : Identity) : divide i (a.rename r) (b.rename r) = divide i a b := by
  cases a <;> cases b <;> rfl

theorem remainder_rename : remainder (a.rename r) (b.rename r) = remainder a b := by
  cases a <;> cases b <;> rfl

theorem power_rename : power (a.rename r) (b.rename r) = power a b := by
  cases a <;> cases b <;> rfl

/-- Operators do not look at names. -/
theorem apply_rename (i : Identity) (operator : String) :
    apply i operator (a.rename r) (b.rename r) = apply i operator a b := by
  simp only [apply, add_rename, subtract_rename, multiply_rename, divide_rename, remainder_rename,
    power_rename, compare, Value.same_rename, Value.toDouble_rename]

theorem step?_rename (operator : String) : step? operator (a.rename r) = step? operator a := by
  cases a <;> rfl

end Operator

namespace Library

variable {r : Renaming}

theorem toNumber_rename (v : Value) : toNumber (v.rename r) = toNumber v := by cases v <;> rfl

theorem toBoolean_rename (v : Value) : toBoolean (v.rename r) = toBoolean v := by cases v <;> rfl

theorem length_rename (v : Value) : length (v.rename r) = length v := by
  cases v with
  | function i name params body closure =>
    cases params <;> simp [length, Value.rename, Node.renameParams, Content.length]
  | array i items => simp [length, Value.rename]
  | _ => rfl

theorem hint_rename (args : List Value) : hint (args.map (Value.rename r)) = hint args := by
  cases args with
  | nil => rfl
  | cons v args => exact Value.content_rename v

end Library

namespace Name

def rename (r : Renaming) : Name → Name
  | .word x => .word (r x)
  | .tree n => .tree n

@[simp] theorem same_rename {r : Renaming} (a b : Name) :
    (a.rename r).same (b.rename r) = a.same b := by
  cases a <;> cases b <;> simp [rename, same, r.injective.eq_iff]

end Name

def Binding.rename (r : Renaming) (b : Binding) : Binding :=
  ⟨b.name.rename r, b.value.rename r, b.mark⟩

namespace Scope

def rename (r : Renaming) (s : Scope) : Scope := { s with bindings := s.bindings.map (·.rename r) }

variable {r : Renaming} (s : Scope) (name : Name)

@[simp] theorem parent?_rename : (s.rename r).parent? = s.parent? := rfl

@[simp] theorem captured_rename : (s.rename r).captured = s.captured := rfl

theorem find?_rename : (s.rename r).find? (name.rename r) = (s.find? name).map (·.rename r) := by
  simp only [find?, rename, List.find?_map]
  congr 2
  funext b
  exact Name.same_rename b.name name

theorem bind_rename (v : Value) (mark : Mark) :
    (s.bind ⟨name, v, mark⟩).rename r = (s.rename r).bind ⟨name.rename r, v.rename r, mark⟩ := rfl

theorem rebind_rename (v : Value) :
    (s.rebind name v).rename r = (s.rename r).rebind (name.rename r) (v.rename r) := by
  simp only [rebind, rename, List.map_map, Scope.mk.injEq, true_and, and_true]
  refine List.map_congr_left fun b _ => ?_
  simp only [Function.comp_apply, Binding.rename, Name.same_rename]
  split <;> rfl

theorem unbind_rename : (s.unbind name).rename r = (s.rename r).unbind (name.rename r) := by
  simp [unbind, rename, List.filter_map, Function.comp_def, Binding.rename]

end Scope

def BindingFault.rename (r : Renaming) : BindingFault → BindingFault
  | .undefined name => .undefined (r name)
  | .redefined name => .redefined (r name)
  | .reassigned name => .reassigned (r name)
  | .functionDeleted name => .functionDeleted (r name)
  | .constantDeleted name => .constantDeleted (r name)

namespace Forest

def rename (r : Renaming) (f : Forest) : Forest := ⟨f.scopes.map (·.rename r)⟩

variable {r : Renaming} (f : Forest)

@[simp] theorem scope?_rename (id : ScopeId) :
    (f.rename r).scope? id = (f.scope? id).map (·.rename r) := by
  simp [scope?, rename]

theorem modifyAt_rename (id : ScopeId) {change change' : Scope → Scope}
    (h : ∀ s, (change s).rename r = change' (s.rename r)) :
    (f.modifyAt id change).rename r = (f.rename r).modifyAt id change' := by
  simp only [modifyAt, rename, Forest.mk.injEq]
  refine Array.ext_getElem? fun i => ?_
  simp only [Array.getElem?_map, Array.getElem?_modify]
  split
  · cases f.scopes[i]? with
    | none => rfl
    | some s => simp [h]
  · rfl

theorem findFrom_rename (name : Name) (steps : Nat) (id : ScopeId) :
    (f.rename r).findFrom (name.rename r) steps id =
      (f.findFrom name steps id).map fun found => (found.1, found.2.rename r) := by
  induction steps generalizing id with
  | zero => rfl
  | succ steps ih =>
    simp only [findFrom, scope?_rename]
    cases f.scope? id with
    | none => rfl
    | some s =>
      simp only [Option.map_some, Scope.find?_rename]
      cases s.find? name with
      | some b => rfl
      | none =>
        simp only [Option.map_none, Scope.parent?_rename]
        cases s.parent? with
        | none => rfl
        | some parent => exact ih parent

theorem lookup?_rename (id : ScopeId) (name : Name) :
    (f.rename r).lookup? id (name.rename r) =
      (f.lookup? id name).map fun found => (found.1, found.2.rename r) :=
  f.findFrom_rename name (id + 1) id

def renamed {α : Type} (r : Renaming) (g : α → α) :
    EStateM.Result BindingFault Forest α → EStateM.Result BindingFault Forest α
  | .ok a f => .ok (g a) (f.rename r)
  | .error fault f => .error (fault.rename r) (f.rename r)

theorem child_rename (parent : ScopeId) :
    child parent (f.rename r) = renamed r id (child parent f) := by
  simp [child, renamed, rename, Scope.rename, Scope.inside]

variable (id : ScopeId) (x : String)

theorem define_rename (v : Value) (mark : Mark) :
    define id (.word (r x)) (v.rename r) mark (f.rename r) =
      renamed r (·.rename r) (define id (.word x) v mark f) := by
  have h : ((f.rename r).scope? id).bind (·.find? (.word (r x))) =
      ((f.scope? id).bind (·.find? (.word x))).map (·.rename r) := by
    rw [scope?_rename]
    cases f.scope? id with
    | none => rfl
    | some s => exact s.find?_rename (.word x)
  simp only [define, h]
  cases (f.scope? id).bind (·.find? (.word x)) with
  | some b => rfl
  | none => exact congrArg _ (f.modifyAt_rename id fun s => s.bind_rename (.word x) v mark).symm

theorem get_rename :
    get id (.word (r x)) (f.rename r) = renamed r (·.rename r) (get id (.word x) f) := by
  have h := f.lookup?_rename (r := r) id (.word x)
  simp only [Name.rename] at h
  simp only [get, h]
  cases f.lookup? id (.word x) <;> rfl

theorem set_rename (v : Value) :
    set id (.word (r x)) (v.rename r) (f.rename r) =
      renamed r (·.rename r) (set id (.word x) v f) := by
  have h := f.lookup?_rename (r := r) id (.word x)
  simp only [Name.rename] at h
  simp only [set, h]
  cases f.lookup? id (.word x) with
  | none => rfl
  | some found =>
    simp only [Option.map_some, Binding.rename]
    split
    · exact congrArg _ (f.modifyAt_rename _ fun s => s.rebind_rename (.word x) v).symm
    · rfl

theorem delete_rename :
    delete id (.word (r x)) (f.rename r) = renamed r (·.rename r) (delete id (.word x) f) := by
  have h := f.lookup?_rename (r := r) id (.word x)
  simp only [Name.rename] at h
  simp only [delete, h]
  cases f.lookup? id (.word x) with
  | none => rfl
  | some found =>
    simp only [Option.map_some, Binding.rename]
    split
    · rfl
    · rfl
    · exact congrArg _ (f.modifyAt_rename _ fun s => s.unbind_rename (.word x)).symm

theorem captureFrom_rename (steps : Nat) :
    (captureFrom steps id f).rename r = captureFrom steps id (f.rename r) := by
  induction steps generalizing id f with
  | zero => rfl
  | succ steps ih =>
    have hmark : (f.modifyAt id Scope.capture).rename r =
        (f.rename r).modifyAt id Scope.capture := f.modifyAt_rename id fun _ => rfl
    simp only [captureFrom, scope?_rename]
    cases f.scope? id with
    | none => rfl
    | some s =>
      simp only [Option.map_some, Scope.captured_rename, Scope.parent?_rename, ← hmark]
      split
      · rfl
      · cases s.parent? with
        | none => rfl
        | some parent => exact ih _ parent

theorem leave_rename (discards : Bool) :
    (f.leave discards id).rename r = (f.rename r).leave discards id := by
  have hclear : (f.modifyAt id Scope.clear).rename r = (f.rename r).modifyAt id Scope.clear :=
    f.modifyAt_rename id fun _ => rfl
  simp only [leave, release, destroy, scope?_rename, ← hclear]
  cases f.scope? id with
  | none => split <;> rfl
  | some s =>
    simp only [Option.map_some, Scope.captured_rename]
    cases discards with
    | false => rfl
    | true => by_cases hc : s.captured = true <;> simp [hc]

end Forest

end Script
