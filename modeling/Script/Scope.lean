import Script.Value

/-!
# Scopes

A scope binds names to values, each marked as a variable, a constant or a function, and lies in
another scope unless it is a root. The scopes of a run form a forest, kept in the order in which
they were made, so a scope comes after the one it lies in. A name is looked up from a scope
outwards; the nearest scope that binds it owns it. Operations that cannot go through leave the
forest as it was.
-/
namespace Script

inductive Mark where
  | variable | constant | function
  deriving DecidableEq

structure Binding where
  name : Name
  value : Value
  mark : Mark

structure Scope where
  parent? : Option ScopeId
  bindings : List Binding
  captured : Bool
  deriving Inhabited

namespace Scope

def inside (parent? : Option ScopeId) : Scope := ⟨parent?, [], false⟩

def find? (s : Scope) (name : Name) : Option Binding := s.bindings.find? (·.name.same name)

def bind (s : Scope) (b : Binding) : Scope := { s with bindings := b :: s.bindings }

def unbind (s : Scope) (name : Name) : Scope :=
  { s with bindings := s.bindings.filter (!·.name.same name) }

/-- Gives the bindings of a name another value and leaves their marks. -/
def rebind (s : Scope) (name : Name) (value : Value) : Scope :=
  { s with bindings := s.bindings.map fun b => if b.name.same name then { b with value } else b }

def clear (s : Scope) : Scope := { s with bindings := [] }

def capture (s : Scope) : Scope := { s with captured := true }

end Scope

structure Forest where
  scopes : Array Scope

namespace Forest

instance : Inhabited Forest := ⟨⟨#[]⟩⟩

def single : Forest := ⟨#[.inside none]⟩

/-- The scope that programs run in. -/
def root : ScopeId := 0

def scope? (f : Forest) (id : ScopeId) : Option Scope := f.scopes[id]?

def modifyAt (f : Forest) (id : ScopeId) (change : Scope → Scope) : Forest :=
  ⟨f.scopes.modify id change⟩

/-- Looks a name up along at most `steps` scopes. -/
def findFrom (f : Forest) (name : Name) : (steps : Nat) → ScopeId → Option (ScopeId × Binding)
  | 0, _ => none
  | steps + 1, id =>
      match f.scope? id with
      | none => none
      | some s =>
          match s.find? name with
          | some b => some (id, b)
          | none =>
              match s.parent? with
              | some parent => findFrom f name steps parent
              | none => none

/-- The nearest scope that binds a name, seen from a scope, and its binding there. No chain is
longer than the number of the scope it starts from tells. -/
def lookup? (f : Forest) (id : ScopeId) (name : Name) : Option (ScopeId × Binding) :=
  f.findFrom name (id + 1) id

def captureFrom : (steps : Nat) → ScopeId → Forest → Forest
  | 0, _, f => f
  | steps + 1, id, f =>
      match f.scope? id with
      | none => f
      | some s =>
          if s.captured then f
          else
            let f := f.modifyAt id Scope.capture
            match s.parent? with
            | some parent => captureFrom steps parent f
            | none => f

/-- Marks a scope and those around it as kept, up to the first that already is. -/
def capture (f : Forest) (id : ScopeId) : Forest := captureFrom (id + 1) id f

def destroy (f : Forest) (id : ScopeId) : Forest := f.modifyAt id Scope.clear

/-- Drops the bindings of a scope that is left, unless it is kept. -/
def release (f : Forest) (id : ScopeId) : Forest :=
  match f.scope? id with
  | some s => if s.captured then f else f.destroy id
  | none => f

/-- Leaves a scope: releases it, unless scopes that are left are not discarded at all. -/
def leave (discards : Bool) (f : Forest) (id : ScopeId) : Forest :=
  if discards then f.release id else f

abbrev Action := EStateM BindingFault Forest

def child (parent : ScopeId) : Action ScopeId := fun f =>
  let id := f.scopes.size
  .ok id ⟨f.scopes.push (.inside (some parent))⟩

def define (id : ScopeId) (name : Name) (value : Value) (mark : Mark) : Action Value := fun f =>
  match (f.scope? id).bind (·.find? name) with
  | some _ => .error (.redefined name.shown) f
  | none => .ok value (f.modifyAt id (·.bind ⟨name, value, mark⟩))

def get (id : ScopeId) (name : Name) : Action Value := fun f =>
  match f.lookup? id name with
  | some (_, b) => .ok b.value f
  | none => .error (.undefined name.shown) f

def set (id : ScopeId) (name : Name) (value : Value) : Action Value := fun f =>
  match f.lookup? id name with
  | none => .error (.undefined name.shown) f
  | some (owner, b) =>
      if b.mark = .variable then .ok value (f.modifyAt owner (·.rebind name value))
      else .error (.reassigned name.shown) f

def resolve (id : ScopeId) (name : Name) : Action ScopeId := fun f =>
  match f.lookup? id name with
  | some (owner, _) => .ok owner f
  | none => .error (.undefined name.shown) f

def contains (f : Forest) (id : ScopeId) (name : Name) : Bool := (f.lookup? id name).isSome

def delete (id : ScopeId) (name : Name) : Action Value := fun f =>
  match f.lookup? id name with
  | none => .error (.undefined name.shown) f
  | some (owner, b) =>
      match b.mark with
      | .function => .error (.functionDeleted name.shown) f
      | .constant => .error (.constantDeleted name.shown) f
      | .variable => .ok b.value (f.modifyAt owner (·.unbind name))

end Forest
end Script
