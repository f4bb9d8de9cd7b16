import Script.Proofs.Lexical

/-!
# Scopes in containers

A scope can also be kept as a map of values with two sets of names beside it, one for the constants
and one for the functions. Nothing in such a table says that the sets agree with the map, or with
each other: every operation has to see to it by itself. They do, whatever calls are made, because
the tables that calls can make are those of the forests that the same calls make.
-/
namespace Script

/-- A scope with its constants and its functions in two sets of names beside the values. -/
structure Table where
  parent? : Option ScopeId
  values : List (Name × Value)
  constants : List Name
  functions : List Name
  captured : Bool

namespace Table

def inside (parent? : Option ScopeId) : Table := ⟨parent?, [], [], [], false⟩

def holds (names : List Name) (n : Name) : Bool := names.any (·.same n)

def add (names : List Name) (n : Name) : List Name :=
  if holds names n then names else n :: names

def value? (t : Table) (n : Name) : Option Value := (t.values.find? (·.1.same n)).map (·.2)

def binds (t : Table) (n : Name) : Bool := t.values.any (·.1.same n)

/-- Gives a name a value, whether it has one already or not. -/
def put (t : Table) (n : Name) (v : Value) : Table :=
  { t with
    values :=
      if t.binds n then t.values.map fun e => if e.1.same n then (e.1, v) else e
      else (n, v) :: t.values }

/-- Drops the value of a name. The sets of names are not looked at. -/
def pop (t : Table) (n : Name) : Table := { t with values := t.values.filter (!·.1.same n) }

/-- Notes what has been defined; what is said to be both is a function. -/
def note (t : Table) (n : Name) (isConstant isFunction : Bool) : Table :=
  if isFunction then { t with functions := add t.functions n }
  else if isConstant then { t with constants := add t.constants n }
  else t

def clear (t : Table) : Table := { t with values := [], constants := [], functions := [] }

def capture (t : Table) : Table := { t with captured := true }

end Table

structure Tables where
  tables : Array Table

namespace Tables

def single : Tables := ⟨#[.inside none]⟩

def table? (t : Tables) (id : ScopeId) : Option Table := t.tables[id]?

def modifyAt (t : Tables) (id : ScopeId) (change : Table → Table) : Tables :=
  ⟨t.tables.modify id change⟩

def findFrom (t : Tables) (n : Name) : (steps : Nat) → ScopeId → Option (ScopeId × Table × Value)
  | 0, _ => none
  | steps + 1, id =>
      match t.table? id with
      | none => none
      | some s =>
          match s.value? n with
          | some v => some (id, s, v)
          | none =>
              match s.parent? with
              | some parent => findFrom t n steps parent
              | none => none

def lookup? (t : Tables) (id : ScopeId) (n : Name) : Option (ScopeId × Table × Value) :=
  t.findFrom n (id + 1) id

def captureFrom : (steps : Nat) → ScopeId → Tables → Tables
  | 0, _, t => t
  | steps + 1, id, t =>
      match t.table? id with
      | none => t
      | some s =>
          if s.captured then t
          else
            let t := t.modifyAt id Table.capture
            match s.parent? with
            | some parent => captureFrom steps parent t
            | none => t

/-- Marks a table and those around it, up to the first that is marked already. -/
def capture (t : Tables) (id : ScopeId) : Tables := captureFrom (id + 1) id t

def destroy (t : Tables) (id : ScopeId) : Tables := t.modifyAt id Table.clear

abbrev Action := EStateM BindingFault Tables

def child (parent : ScopeId) : Action ScopeId := fun t =>
  .ok t.tables.size ⟨t.tables.push (.inside (some parent))⟩

def define (id : ScopeId) (n : Name) (v : Value) (isConstant isFunction : Bool) : Action Value :=
  fun t =>
    if (t.table? id).any (·.binds n) then .error (.redefined n.shown) t
    else .ok v (t.modifyAt id fun s => (s.put n v).note n isConstant isFunction)

def resolve (id : ScopeId) (n : Name) : Action ScopeId := fun t =>
  match t.lookup? id n with
  | some (owner, _) => .ok owner t
  | none => .error (.undefined n.shown) t

def get (id : ScopeId) (n : Name) : Action Value := fun t =>
  match t.lookup? id n with
  | some (_, _, v) => .ok v t
  | none => .error (.undefined n.shown) t

def set (id : ScopeId) (n : Name) (v : Value) : Action Value := fun t =>
  match t.lookup? id n with
  | none => .error (.undefined n.shown) t
  | some (owner, s, _) =>
      if Table.holds s.constants n || Table.holds s.functions n then
        .error (.reassigned n.shown) t
      else .ok v (t.modifyAt owner (·.put n v))

def delete (id : ScopeId) (n : Name) : Action Value := fun t =>
  match t.lookup? id n with
  | none => .error (.undefined n.shown) t
  | some (owner, s, v) =>
      if Table.holds s.functions n then .error (.functionDeleted n.shown) t
      else if Table.holds s.constants n then .error (.constantDeleted n.shown) t
      else .ok v (t.modifyAt owner (·.pop n))

/-- A call on a table; what is defined comes with any flags. -/
inductive Call where
  | child (id : ScopeId)
  | define (id : ScopeId) (n : Name) (v : Value) (isConstant isFunction : Bool)
  | get (id : ScopeId) (n : Name)
  | set (id : ScopeId) (n : Name) (v : Value)
  | delete (id : ScopeId) (n : Name)
  | capture (id : ScopeId)
  | destroy (id : ScopeId)

def Call.scope : Call → ScopeId
  | child id | define id .. | get id _ | set id .. | delete id _ | capture id | destroy id => id

/-- The tables that an operation leaves, also if it does not go through. -/
def left {α : Type} : EStateM.Result BindingFault Tables α → Tables
  | .ok _ t => t
  | .error _ t => t

def Call.after (t : Tables) : Call → Tables
  | child id => left (Tables.child id t)
  | define id n v isConstant isFunction => left (Tables.define id n v isConstant isFunction t)
  | get id n => left (Tables.get id n t)
  | set id n v => left (Tables.set id n v t)
  | delete id n => left (Tables.delete id n t)
  | capture id => t.capture id
  | destroy id => t.destroy id

/-- What can be made of one root by calls on tables that are there. -/
inductive Reachable : Tables → Prop
  | single : Reachable single
  | call {t : Tables} (ht : Reachable t) (c : Call) (hc : c.scope < t.tables.size) :
      Reachable (c.after t)

def IsCaptured (t : Tables) (id : ScopeId) : Prop := ∃ s, t.table? id = some s ∧ s.captured = true

inductive Above (t : Tables) : ScopeId → ScopeId → Prop
  | refl (id) : Above t id id
  | step {id s p a} (hs : t.table? id = some s) (hp : s.parent? = some p) (h : Above t p a) :
      Above t id a

/-- The sets of names and the marks agree with the values and with each other. -/
structure Consistent (t : Tables) : Prop where
  disjoint : ∀ id s n, t.table? id = some s →
    ¬ (Table.holds s.constants n = true ∧ Table.holds s.functions n = true)
  constants_bound : ∀ id s n, t.table? id = some s → Table.holds s.constants n = true →
    s.binds n = true
  functions_bound : ∀ id s n, t.table? id = some s → Table.holds s.functions n = true →
    s.binds n = true
  captured_parent : ∀ id s p, t.table? id = some s → s.captured = true → s.parent? = some p →
    t.IsCaptured p

/-- The name can be defined in the table `o` as a plain variable and then be given another value
from `e`, which both see. -/
def Free (t : Tables) (o e : ScopeId) (n : Name) : Prop :=
  ∀ v w, ∃ t' t'', define o n v false false t = .ok v t' ∧ set e n w t' = .ok w t'' ∧
    get e n t'' = .ok w t'' ∧ get o n t'' = .ok w t''

end Tables

def Mark.ofFlags (isConstant isFunction : Bool) : Mark :=
  if isFunction then .function else if isConstant then .constant else .variable

namespace Scope

variable {s : Scope} {n : Name} {b : Binding} {mark : Mark}

def named (s : Scope) (mark : Mark) : List Name :=
  (s.bindings.filter (·.mark = mark)).map (·.name)

def table (s : Scope) : Table :=
  ⟨s.parent?, s.bindings.map fun b => (b.name, b.value), s.named .constant, s.named .function,
    s.captured⟩

def Distinct (s : Scope) : Prop :=
  (s.bindings.map Binding.name).Pairwise fun a b => a.same b = false

theorem Distinct.find?_of_mem (hs : s.Distinct) (hb : b ∈ s.bindings) (hn : b.name.same n = true) :
    s.find? n = some b := by
  rw [← find?_congr hn]
  exact Script.find?_of_mem hs hb

theorem value?_table (s : Scope) (n : Name) :
    s.table.value? n = (s.find? n).map (·.value) := by
  rw [Table.value?, table, List.find?_map, Option.map_map]
  rfl

theorem binds_table (s : Scope) (n : Name) : s.table.binds n = (s.find? n).isSome := by
  rw [Table.binds, table, List.any_map, find?, List.isSome_find?]
  rfl

theorem mem_named {m : Name} : m ∈ s.named mark ↔ ∃ b ∈ s.bindings, b.mark = mark ∧ b.name = m := by
  simp [named, and_assoc]

theorem holds_named (hs : s.Distinct) :
    Table.holds (s.named mark) n = true ↔ ∃ b, s.find? n = some b ∧ b.mark = mark := by
  rw [Table.holds, List.any_eq_true]
  constructor
  · rintro ⟨m, hm, hn⟩
    obtain ⟨b, hb, hmark, rfl⟩ := mem_named.mp hm
    exact ⟨b, hs.find?_of_mem hb hn, hmark⟩
  · rintro ⟨b, hb, hmark⟩
    exact ⟨b.name, mem_named.mpr ⟨b, List.mem_of_find?_eq_some hb, hmark, rfl⟩, same_of_find? hb⟩

theorem holds_named_eq_false (hno : s.find? n = none) : Table.holds (s.named mark) n = false := by
  rw [Table.holds, List.any_eq_false]
  intro m hm
  obtain ⟨b, hb, -, rfl⟩ := mem_named.mp hm
  exact List.find?_eq_none.mp hno b hb

theorem named_bind (s : Scope) (b : Binding) (mark : Mark) :
    (s.bind b).named mark = if b.mark = mark then b.name :: s.named mark else s.named mark := by
  rw [named, bind, List.filter_cons]
  split <;> simp_all [named]

theorem named_rebind (s : Scope) (n : Name) (v : Value) (mark : Mark) :
    (s.rebind n v).named mark = s.named mark := by
  rw [named, named, rebind, List.filter_map, List.map_map]
  have hmark : (fun b : Binding => decide (b.mark = mark)) ∘
      (fun b : Binding => if b.name.same n then { b with value := v } else b) =
      fun b => decide (b.mark = mark) := by
    funext b
    rw [Function.comp_apply]
    split <;> rfl
  rw [hmark]
  refine List.map_congr_left fun b _ => ?_
  rw [Function.comp_apply]
  split <;> rfl

/-- Dropping a variable takes no name out of the sets of names. -/
theorem named_unbind (hs : s.Distinct) (hb : s.find? n = some b) {mark : Mark}
    (hm : b.mark ≠ mark) : (s.unbind n).named mark = s.named mark := by
  rw [named, named, unbind, List.filter_filter]
  refine congrArg _ (List.filter_congr fun c hc => ?_)
  by_cases hsame : c.name.same n = true
  · obtain rfl : b = c := Option.some.inj (hb.symm.trans (hs.find?_of_mem hc hsame))
    simp [hsame, hm]
  · simp [hsame]

theorem table_bind (hno : s.find? n = none) (v : Value) (isConstant isFunction : Bool) :
    (s.bind ⟨n, v, .ofFlags isConstant isFunction⟩).table =
      (s.table.put n v).note n isConstant isFunction := by
  have hbinds : s.table.binds n = false := by rw [binds_table, hno, Option.isSome_none]
  have hput : s.table.put n v = { s.table with values := (n, v) :: s.table.values } := by
    rw [Table.put, hbinds, if_neg Bool.false_ne_true]
  have hadd (mark : Mark) : Table.add (s.named mark) n = n :: s.named mark := by
    rw [Table.add, holds_named_eq_false hno, if_neg Bool.false_ne_true]
  rw [hput, table, named_bind, named_bind]
  cases isConstant <;> cases isFunction <;> simp [Table.note, Mark.ofFlags, table, hadd, bind]

theorem table_rebind (hb : s.find? n = some b) (v : Value) :
    (s.rebind n v).table = s.table.put n v := by
  have hbinds : s.table.binds n = true := by rw [binds_table, hb, Option.isSome_some]
  rw [Table.put, if_pos hbinds, table, named_rebind, named_rebind]
  simp only [table, rebind, List.map_map]
  congr 1
  refine List.map_congr_left fun c _ => ?_
  simp only [Function.comp_apply]
  split <;> rfl

/-- A variable can be dropped from the values alone, since it is in neither set of names. -/
theorem table_unbind (hs : s.Distinct) (hb : s.find? n = some b) (hm : b.mark = .variable) :
    (s.unbind n).table = s.table.pop n := by
  have hconstant : b.mark ≠ .constant := by simp [hm]
  have hfunction : b.mark ≠ .function := by simp [hm]
  rw [Table.pop, table, named_unbind hs hb hconstant, named_unbind hs hb hfunction, table,
    List.filter_map]
  rfl

end Scope

namespace Forest

variable {f : Forest} {id e o : ScopeId} {n : Name}

def tables (f : Forest) : Tables := ⟨f.scopes.map Scope.table⟩

def Distinct (f : Forest) : Prop := ∀ id s, f.scope? id = some s → s.Distinct

theorem tables_size (f : Forest) : f.tables.tables.size = f.scopes.size := by
  simp [tables]

theorem table?_tables (f : Forest) (id : ScopeId) :
    f.tables.table? id = (f.scope? id).map Scope.table := by
  simp [tables, Tables.table?, scope?]

theorem tables_modifyAt {change : Scope → Scope} {change' : Table → Table}
    (h : ∀ s, f.scope? id = some s → (change s).table = change' s.table) :
    (f.modifyAt id change).tables = f.tables.modifyAt id change' := by
  refine congrArg Tables.mk (Array.ext_getElem? fun a => ?_)
  have hmodify : (f.tables.tables.modify id change')[a]? =
      if id = a then (f.tables.table? a).map change' else f.tables.table? a := by
    simp [Tables.table?, Array.getElem?_modify]
  have hscope : ((f.modifyAt id change).scopes.map Scope.table)[a]? =
      ((f.modifyAt id change).scope? a).map Scope.table := by
    simp [scope?]
  rw [hmodify, hscope, scope?_modifyAt, table?_tables]
  split
  · rename_i hid
    subst hid
    cases hs : f.scope? id with
    | none => rfl
    | some s => exact congrArg some (h s hs)
  · rfl

/-- Looking a name up in the tables of a forest finds what looking it up in the forest finds. -/
theorem findFrom_tables (f : Forest) (n : Name) (steps : Nat) (id : ScopeId) :
    f.findFrom n steps id = none ∧ f.tables.findFrom n steps id = none ∨
      ∃ o s b, f.findFrom n steps id = some (o, b) ∧ f.scope? o = some s ∧ s.find? n = some b ∧
        f.tables.findFrom n steps id = some (o, s.table, b.value) := by
  induction steps generalizing id with
  | zero => exact .inl ⟨rfl, rfl⟩
  | succ steps ih =>
    rw [findFrom, Tables.findFrom, table?_tables]
    cases hs : f.scope? id with
    | none => exact .inl ⟨rfl, rfl⟩
    | some s =>
      simp only [Option.map_some, Scope.value?_table]
      cases hb : s.find? n with
      | some b => exact .inr ⟨id, s, b, rfl, hs, hb, rfl⟩
      | none =>
        have hparent : s.table.parent? = s.parent? := rfl
        simp only [Option.map_none, hparent]
        cases s.parent? with
        | none => exact .inl ⟨rfl, rfl⟩
        | some p => exact ih p

theorem lookup?_tables (f : Forest) (id : ScopeId) (n : Name) :
    f.lookup? id n = none ∧ f.tables.lookup? id n = none ∨
      ∃ o s b, f.lookup? id n = some (o, b) ∧ f.scope? o = some s ∧ s.find? n = some b ∧
        f.tables.lookup? id n = some (o, s.table, b.value) :=
  findFrom_tables f n (id + 1) id

theorem captureFrom_tables (steps : Nat) (id : ScopeId) (f : Forest) :
    (captureFrom steps id f).tables = Tables.captureFrom steps id f.tables := by
  induction steps generalizing id f with
  | zero => rfl
  | succ steps ih =>
    rw [captureFrom, Tables.captureFrom, table?_tables]
    cases f.scope? id with
    | none => rfl
    | some s =>
      have hcaptured : s.table.captured = s.captured := rfl
      have hparent : s.table.parent? = s.parent? := rfl
      have hmark : (f.modifyAt id Scope.capture).tables = f.tables.modifyAt id Table.capture :=
        tables_modifyAt fun _ _ => rfl
      simp only [Option.map_some, hcaptured, hparent]
      split_ifs
      · rfl
      · cases s.parent? with
        | none => exact hmark
        | some p =>
          simp only
          rw [ih, hmark]

/-- A result of an operation, with the tables in the place of the forest. -/
def viewed {α : Type} : EStateM.Result BindingFault Forest α → EStateM.Result BindingFault Tables α
  | .ok a f => .ok a f.tables
  | .error fault f => .error fault f.tables

theorem left_viewed {α : Type} (r : EStateM.Result BindingFault Forest α) :
    Tables.left (viewed r) = (left r).tables := by
  cases r <;> rfl

/-- The operations on the tables of a forest have the results, also where they do not go through,
that the operations on the forest have. -/
structure Mirrored (f : Forest) : Prop where
  child : ∀ e, Tables.child e f.tables = viewed (child e f)
  define : ∀ e n v isConstant isFunction, Tables.define e n v isConstant isFunction f.tables =
    viewed (define e n v (.ofFlags isConstant isFunction) f)
  resolve : ∀ e n, Tables.resolve e n f.tables = viewed (resolve e n f)
  get : ∀ e n, Tables.get e n f.tables = viewed (get e n f)
  set : ∀ e n v, Tables.set e n v f.tables = viewed (set e n v f)
  delete : ∀ e n, Tables.delete e n f.tables = viewed (delete e n f)
  capture : ∀ e, f.tables.capture e = (f.capture e).tables
  destroy : ∀ e, f.tables.destroy e = (f.destroy e).tables

theorem define_tables (f : Forest) (e : ScopeId) (n : Name) (v : Value)
    (isConstant isFunction : Bool) :
    Tables.define e n v isConstant isFunction f.tables =
      viewed (define e n v (.ofFlags isConstant isFunction) f) := by
  have hbinds : (f.tables.table? e).any (·.binds n) = ((f.scope? e).bind (·.find? n)).isSome := by
    rw [table?_tables]
    cases f.scope? e with
    | none => rfl
    | some s => exact Scope.binds_table s n
  rw [Tables.define, hbinds, define]
  cases hno : (f.scope? e).bind (·.find? n) with
  | some b => rfl
  | none =>
    rw [if_neg (by simp)]
    refine congrArg (EStateM.Result.ok v) (tables_modifyAt fun s hs => ?_).symm
    rw [hs] at hno
    exact Scope.table_bind hno v isConstant isFunction

namespace Distinct

variable (hf : f.Distinct)

include hf

/-- In the table of the owner, the sets of names tell the mark of the binding. -/
theorem holds_tables {o : ScopeId} {s : Scope} {b : Binding} (hs : f.scope? o = some s)
    (hb : s.find? n = some b) (mark : Mark) :
    Table.holds (s.named mark) n = decide (b.mark = mark) := by
  rw [Bool.eq_iff_iff, Scope.holds_named (hf o s hs), hb]
  simp

theorem set_tables (e : ScopeId) (n : Name) (v : Value) :
    Tables.set e n v f.tables = viewed (set e n v f) := by
  rw [Tables.set, set]
  rcases lookup?_tables f e n with ⟨hl, ht⟩ | ⟨o, s, b, hl, hs, hb, ht⟩
  · rw [hl, ht]
    rfl
  · have hput : (f.modifyAt o (·.rebind n v)).tables = f.tables.modifyAt o (·.put n v) := by
      refine tables_modifyAt fun t ht => ?_
      obtain rfl : s = t := Option.some.inj (hs.symm.trans ht)
      exact Scope.table_rebind hb v
    rw [hl, ht]
    simp only [Scope.table, hf.holds_tables hs hb]
    cases hm : b.mark <;> simp [viewed, hput]

theorem delete_tables (e : ScopeId) (n : Name) :
    Tables.delete e n f.tables = viewed (delete e n f) := by
  rw [Tables.delete, delete]
  rcases lookup?_tables f e n with ⟨hl, ht⟩ | ⟨o, s, b, hl, hs, hb, ht⟩
  · rw [hl, ht]
    rfl
  · have hpop (hm : b.mark = .variable) :
        (f.modifyAt o (·.unbind n)).tables = f.tables.modifyAt o (·.pop n) := by
      refine tables_modifyAt fun t ht => ?_
      obtain rfl : s = t := Option.some.inj (hs.symm.trans ht)
      exact Scope.table_unbind (hf o s hs) hb hm
    rw [hl, ht]
    simp only [Scope.table, hf.holds_tables hs hb]
    cases hm : b.mark
    · simp [viewed, hpop hm]
    · simp [viewed]
    · simp [viewed]

theorem mirrored : f.Mirrored := by
  refine ⟨fun e => ?_, define_tables f, fun e n => ?_, fun e n => ?_, hf.set_tables,
    hf.delete_tables, fun e => (captureFrom_tables (e + 1) e f).symm, fun e => ?_⟩
  · simp [Tables.child, child, viewed, tables, Scope.table, Scope.named, Scope.inside, Table.inside]
  · rw [Tables.resolve, resolve]
    rcases lookup?_tables f e n with ⟨hl, ht⟩ | ⟨o, s, b, hl, -, -, ht⟩ <;> rw [hl, ht] <;> rfl
  · rw [Tables.get, get]
    rcases lookup?_tables f e n with ⟨hl, ht⟩ | ⟨o, s, b, hl, -, -, ht⟩ <;> rw [hl, ht] <;> rfl
  · exact (tables_modifyAt fun _ _ => rfl).symm

end Distinct

theorem Distinct.modifyAt (hf : f.Distinct) (id : ScopeId) {change : Scope → Scope}
    (hc : ∀ s, f.scope? id = some s → s.Distinct → (change s).Distinct) :
    (f.modifyAt id change).Distinct := by
  intro a t ht
  rcases scope?_modifyAt_eq_some ht with ⟨rfl, s, hs, rfl⟩ | ⟨-, hs⟩
  · exact hc s hs (hf _ s hs)
  · exact hf a t hs

end Forest

namespace Scope

variable {s : Scope} {n : Name} {b : Binding}

theorem Distinct.bind (hs : s.Distinct) (hno : s.find? n = none) (v : Value) (mark : Mark) :
    (s.bind ⟨n, v, mark⟩).Distinct := by
  refine List.pairwise_cons.mpr ⟨fun m hm => ?_, hs⟩
  obtain ⟨b, hb, rfl⟩ := List.mem_map.mp hm
  have hne : ¬ b.name.same n = true := List.find?_eq_none.mp hno b hb
  rw [Name.same_comm]
  simpa using hne

theorem Distinct.rebind (hs : s.Distinct) (n : Name) (v : Value) : (s.rebind n v).Distinct := by
  have hnames : (s.rebind n v).bindings.map Binding.name = s.bindings.map Binding.name := by
    rw [Scope.rebind, List.map_map]
    refine List.map_congr_left fun b _ => ?_
    simp only [Function.comp_apply]
    split <;> rfl
  rw [Distinct, hnames]
  exact hs

theorem Distinct.unbind (hs : s.Distinct) (n : Name) : (s.unbind n).Distinct :=
  hs.sublist (List.filter_sublist.map Binding.name)

end Scope

namespace Forest

variable {f : Forest}

theorem distinct_single : single.Distinct := by
  intro id s hs
  obtain rfl : id = 0 := Nat.lt_one_iff.mp (lt_size_of_scope? hs)
  cases hs
  exact .nil

/-- In what one call leaves, no name is bound twice either. -/
theorem Call.Leaves.distinct {c : Call} {g : Forest} (h : c.Leaves f g) (hf : f.Distinct)
    (hsound : f.Sound) : g.Distinct := by
  cases h with
  | same => exact hf
  | child id =>
    intro a t ht
    rcases scope?_push_eq_some ht with ⟨-, rfl⟩ | ⟨-, hs⟩
    · exact .nil
    · exact hf a t hs
  | @define id n hno v mark =>
    refine hf.modifyAt id fun s hs hdistinct => hdistinct.bind ?_ v mark
    rwa [at?, hs, Option.bind_some] at hno
  | @set _ o n _ _ _ v => exact hf.modifyAt o fun s _ hdistinct => hdistinct.rebind n v
  | @delete _ o n => exact hf.modifyAt o fun s _ hdistinct => hdistinct.unbind n
  | capture id =>
    intro a t ht
    obtain ⟨s, hs, -, hbindings, -⟩ := hsound.capture_eq_some ht
    rw [Scope.Distinct, hbindings]
    exact hf a s hs
  | destroy id => exact hf.modifyAt id fun _ _ _ => .nil

theorem Reachable.distinct (hf : f.Reachable) : f.Distinct := by
  induction hf with
  | single => exact distinct_single
  | call hf c _ ih => exact (c.leaves_after _).distinct ih hf.sound

theorem isCaptured_tables {id : ScopeId} : f.tables.IsCaptured id ↔ f.IsCaptured id := by
  rw [Tables.IsCaptured, IsCaptured, table?_tables]
  cases f.scope? id with
  | none => simp
  | some s => simp [Scope.table]

theorem above_tables {a b : ScopeId} : f.tables.Above a b ↔ Above f a b := by
  constructor
  · intro h
    induction h with
    | refl => exact .refl _
    | step ht hp _ ih =>
      rw [table?_tables] at ht
      obtain ⟨s, hs, rfl⟩ := Option.map_eq_some_iff.mp ht
      exact .step hs hp ih
  · intro h
    induction h with
    | refl => exact .refl _
    | step hs hp _ ih => exact .step (by rw [table?_tables, hs, Option.map_some]) hp ih

theorem Distinct.consistent (hf : f.Distinct) (hsound : f.Sound) : f.tables.Consistent := by
  have hscope {id : ScopeId} {t : Table} (ht : f.tables.table? id = some t) :
      ∃ s, f.scope? id = some s ∧ s.table = t := by
    rw [table?_tables] at ht
    exact Option.map_eq_some_iff.mp ht
  have hbound {id : ScopeId} {s : Scope} {n : Name} {mark : Mark} (hs : f.scope? id = some s)
      (h : Table.holds (s.named mark) n = true) : s.table.binds n = true := by
    obtain ⟨b, hb, -⟩ := (Scope.holds_named (hf id s hs)).mp h
    rw [Scope.binds_table, hb, Option.isSome_some]
  refine ⟨fun id t n ht => ?_, fun id t n ht => ?_, fun id t n ht => ?_, fun id t p ht hc hp => ?_⟩
  all_goals obtain ⟨s, hs, rfl⟩ := hscope ht
  · rintro ⟨hconstant, hfunction⟩
    obtain ⟨b, hb, hm⟩ := (Scope.holds_named (hf id s hs)).mp hconstant
    obtain ⟨c, hc, hm'⟩ := (Scope.holds_named (hf id s hs)).mp hfunction
    obtain rfl : b = c := Option.some.inj (hb.symm.trans hc)
    cases hm.symm.trans hm'
  · exact hbound hs
  · exact hbound hs
  · exact isCaptured_tables.mpr (hsound.captured_parent hs hc hp)

theorem Sound.isCaptured_capture_iff (hf : f.Sound) {e a : ScopeId} (he : e < f.scopes.size) :
    (f.capture e).IsCaptured a ↔ f.IsCaptured a ∨ Above f e a := by
  rw [hf.isCaptured_capture]
  refine or_congr_right (and_iff_left_of_imp fun ha => ?_)
  exact exists_scope?_of_lt (Nat.lt_of_le_of_lt (ha.le hf.parent_lt) he)

section Renewing

variable {e o : ScopeId} {n : Name} {b : Binding}

theorem Reachable.defined (hf : f.Reachable) (ho : o < f.scopes.size) (hno : f.at? o n = none)
    (v : Value) : ∃ g, define o n v .variable f = .ok v g ∧ g.Reachable ∧
      g.scopes.size = f.scopes.size ∧
      ∀ e, f.Meets n o e → g.lookup? e n = some (o, ⟨n, v, .variable⟩) := by
  have hdefine := define_of_unbound hno v .variable
  have hafter := hf.call (.define o n v .variable) ho
  rw [Call.after, hdefine] at hafter
  refine ⟨_, hdefine, hafter, scopes_size_modifyAt .., fun e hm => ?_⟩
  refine (differsAt_bind f o n v .variable).seen_bound hf.sound.parent_lt hm ?_
  obtain ⟨s, hs⟩ := exists_scope?_of_lt ho
  rw [at?_modifyAt_self, hs, Option.bind_some, Scope.find?_bind_eq, if_pos (Name.same_refl n)]

theorem Reachable.reassigned (hf : f.Reachable) (he : e < f.scopes.size)
    (hl : f.lookup? e n = some (o, b)) (hm : b.mark = .variable) (w : Value) :
    ∃ g, set e n w f = .ok w g ∧ g.Reachable ∧
      ∀ a, f.lookup? a n = some (o, b) → g.lookup? a n = some (o, { b with value := w }) := by
  have hdescends : f.Descends := hf.sound.parent_lt
  have hset : set e n w f = .ok w (f.modifyAt o (·.rebind n w)) := by simp only [set, hl, if_pos hm]
  have hafter := hf.call (.set e n w) he
  rw [Call.after, hset] at hafter
  refine ⟨_, hset, hafter, fun a ha => ?_⟩
  have howns := hdescends.lookup?_iff.mp ha
  refine (differsAt_rebind f o n w).seen_bound hdescends howns.meets ?_
  obtain ⟨s, hs, hb⟩ := Option.bind_eq_some_iff.mp howns.binds
  rw [at?_modifyAt_self, hs, Option.bind_some, Scope.find?_rebind_eq, hb, Option.map_some,
    if_pos (Scope.same_of_find? hb)]

/-- A name that a scope does not bind can be defined there and then be given another value from
wherever the way out comes to the scope. -/
theorem Reachable.free (hf : f.Reachable) (ho : o < f.scopes.size) (he : e < f.scopes.size)
    (hno : f.at? o n = none) (hm : f.Meets n o e) : f.tables.Free o e n := by
  intro v w
  obtain ⟨g, hdefine, hg, hsize, hseen⟩ := hf.defined ho hno v
  obtain ⟨h, hset, hh, hkept⟩ := hg.reassigned (hsize ▸ he) (hseen e hm) rfl w
  have hget {a : ScopeId} (ha : f.Meets n o a) : get a n h = .ok w h := by
    simp only [get, hkept a (hseen a ha)]
  refine ⟨g.tables, h.tables, ?_, ?_, ?_, ?_⟩
  · rw [hf.distinct.mirrored.define]
    exact congrArg viewed hdefine
  · rw [hg.distinct.mirrored.set, hset]
    rfl
  · rw [hh.distinct.mirrored.get, hget hm]
    rfl
  · rw [hh.distinct.mirrored.get, hget .here]
    rfl

theorem Reachable.free_destroy (hf : f.Reachable) (he : e < f.scopes.size) (n : Name) :
    (f.destroy e).tables.Free e e n := by
  have hsize : e < (f.destroy e).scopes.size := by rwa [destroy, scopes_size_modifyAt]
  refine Reachable.free (hf.call (.destroy e) he) hsize hsize ?_ .here
  rw [destroy, at?_modifyAt_self]
  cases f.scope? e <;> rfl

/-- A deleted name can be defined again in the scope that owned it and in the one it was deleted
from. -/
theorem Reachable.free_delete (hf : f.Reachable) (he : e < f.scopes.size) {v : Value} {g : Forest}
    (h : delete e n f = .ok v g) :
    ∃ o, resolve e n f = .ok o f ∧ g.tables.Free o e n ∧ g.tables.Free e e n := by
  rcases delete_cases f e n with ⟨fault, herror⟩ | ⟨o, b, hl, -, hok⟩
  · cases h.symm.trans herror
  · obtain ⟨rfl, rfl⟩ : v = b.value ∧ g = f.modifyAt o (·.unbind n) := by
      simpa using h.symm.trans hok
    have hafter := hf.call (.delete e n) he
    rw [Call.after, hok] at hafter
    have hdescends : f.Descends := hf.sound.parent_lt
    have howns := hdescends.lookup?_iff.mp hl
    obtain ⟨s, hs, -⟩ := Option.bind_eq_some_iff.mp howns.binds
    have ho : o < f.scopes.size := lt_size_of_scope? hs
    have hat : ∀ a, a ≠ o → (f.modifyAt o (·.unbind n)).at? a n = f.at? a n :=
      fun a ha => at?_modifyAt_of_ne ha f _ n
    have hgone : (f.modifyAt o (·.unbind n)).at? o n = none := by
      rw [at?_modifyAt_self, hs]
      exact Scope.find?_unbind_of_same (Name.same_refl n) s
    have hchains : f.SameChains (f.modifyAt o (·.unbind n)) :=
      sameChains_modifyAt f o fun _ => rfl
    have hmeets := howns.meets.congr hchains hat
    have hgone_here : (f.modifyAt o (·.unbind n)).at? e n = none := by
      cases hmeets with
      | here => exact hgone
      | out hno => exact hno
    rw [← scopes_size_modifyAt f o (·.unbind n)] at ho he
    refine ⟨o, ?_, hafter.free ho he hgone hmeets, hafter.free he he hgone_here .here⟩
    simp only [resolve, hl]

end Renewing

end Forest

namespace Tables

variable {t : Tables} {e : ScopeId}

def Call.onForest : Call → Forest.Call
  | child id => .child id
  | define id n v isConstant isFunction => .define id n v (.ofFlags isConstant isFunction)
  | get id n => .get id n
  | set id n v => .set id n v
  | delete id n => .delete id n
  | capture id => .capture id
  | destroy id => .destroy id

theorem Call.after_tables {f : Forest} (hf : f.Mirrored) (c : Call) :
    c.after f.tables = (c.onForest.after f).tables := by
  cases c with
  | child id => exact (congrArg left (hf.child id)).trans (Forest.left_viewed _)
  | define id n v isConstant isFunction =>
    exact (congrArg left (hf.define id n v isConstant isFunction)).trans (Forest.left_viewed _)
  | get id n => exact (congrArg left (hf.get id n)).trans (Forest.left_viewed _)
  | set id n v => exact (congrArg left (hf.set id n v)).trans (Forest.left_viewed _)
  | delete id n => exact (congrArg left (hf.delete id n)).trans (Forest.left_viewed _)
  | capture id => exact hf.capture id
  | destroy id => exact hf.destroy id

theorem tables_single : Forest.single.tables = single := by
  simp [Forest.tables, Forest.single, Scope.table, Scope.inside, Scope.named, single, Table.inside]

/-- What calls can make are the tables of what the same calls make of a forest. -/
theorem Reachable.exists_forest (ht : t.Reachable) : ∃ f : Forest, f.Reachable ∧ f.tables = t := by
  induction ht with
  | single => exact ⟨_, .single, tables_single⟩
  | call _ c hc ih =>
    obtain ⟨f, hf, rfl⟩ := ih
    have hscope : c.onForest.scope = c.scope := by cases c <;> rfl
    rw [Forest.tables_size, ← hscope] at hc
    exact ⟨_, hf.call c.onForest hc, (c.after_tables hf.distinct.mirrored).symm⟩

/-- However tables have come about from one root, the sets of names and the marks agree with the
values and with each other. So capturing marks the table and all those around it although it stops
at the first that is marked, and a name that is destroyed or deleted leaves nothing behind that
would keep it from being a plain variable. And the tables are those of a forest on which every
operation has the same result. -/
theorem containers_agree (ht : t.Reachable) :
    t.Consistent ∧
      (∀ e a, e < t.tables.size → ((t.capture e).IsCaptured a ↔ t.IsCaptured a ∨ t.Above e a)) ∧
      (∀ e n, e < t.tables.size → (t.destroy e).Free e e n) ∧
      (∀ e n v t', e < t.tables.size → delete e n t = .ok v t' →
        ∃ o, resolve e n t = .ok o t ∧ t'.Free o e n ∧ t'.Free e e n) ∧
      ∃ f : Forest, f.Reachable ∧ f.tables = t ∧ f.Mirrored := by
  obtain ⟨f, hf, rfl⟩ := ht.exists_forest
  have hmirrored := hf.distinct.mirrored
  simp only [Forest.tables_size]
  refine ⟨hf.distinct.consistent hf.sound, fun e a he => ?_, fun e n he => ?_,
    fun e n v t' he h => ?_, f, hf, rfl, hmirrored⟩
  · rw [hmirrored.capture, Forest.isCaptured_tables, Forest.isCaptured_tables, Forest.above_tables]
    exact hf.sound.isCaptured_capture_iff he
  · rw [hmirrored.destroy]
    exact hf.free_destroy he n
  · rw [hmirrored.delete] at h
    cases hdelete : Forest.delete e n f with
    | error fault g =>
      rw [hdelete] at h
      cases h
    | ok w g =>
      rw [hdelete] at h
      cases h
      obtain ⟨o, hresolve, hfree⟩ := hf.free_delete he hdelete
      refine ⟨o, ?_, hfree⟩
      rw [hmirrored.resolve, hresolve]
      rfl

/-- A function in the root, a captured scope with a constant of the same name, and a scope in it
whose constant is destroyed. -/
def nested : Tables :=
  [Call.define 0 (.word "f") (.number "1") true true, .child 0,
    .define 1 (.word "f") (.number "2") true false, .capture 1, .child 1,
    .define 2 (.word "x") (.number "3") true false, .delete 2 (.word "f"), .destroy 2].foldl
    Call.after single

theorem reachable_nested : nested.Reachable := by
  simp only [nested, List.foldl_cons, List.foldl_nil]
  refine .call (.call (.call (.call (.call (.call (.call (.call .single
    _ ?_) _ ?_) _ ?_) _ ?_) _ ?_) _ ?_) _ ?_) _ ?_
  all_goals decide

theorem containers_agree_nested :
    nested.Reachable ∧ nested.tables.size = 3 ∧ nested.Consistent ∧ nested.IsCaptured 0 ∧
      ¬ nested.IsCaptured 2 ∧ (nested.capture 2).IsCaptured 2 ∧
      (nested.destroy 2).Free 2 2 (.word "x") := by
  obtain ⟨hconsistent, hcapture, hdestroy, -⟩ := containers_agree reachable_nested
  refine ⟨reachable_nested, by decide, hconsistent, ⟨_, rfl, rfl⟩, ?_,
    (hcapture 2 2 (by decide)).mpr (.inr (.refl 2)), hdestroy 2 _ (by decide)⟩
  rintro ⟨s, hs, hc⟩
  cases hs
  cases hc

end Tables
end Script
