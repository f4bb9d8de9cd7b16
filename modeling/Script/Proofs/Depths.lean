import Script.Proofs.Course

/-!
# The bound on the depth

A run that does not meet the bound on the depth comes to the same with every higher bound. So it
makes sense to say what a run comes to without saying how deep trees and calls may nest.
-/
namespace Script

def TooDeep {α : Type} (r : EStateM.Result Fault Machine α) : Prop := ∃ m, r = .error .tooDeep m

/-- What a computation comes to within some bound on the depth. -/
def Settles {α : Type} (x : Nat → Run α) (m : Machine)
    (r : EStateM.Result Fault Machine α) : Prop :=
  ∃ depth, x depth m = r ∧ ¬ TooDeep r

/-- The second computation comes to the same as the first, unless that is too deep. -/
def Outreaches {α : Type} (x x' : Run α) : Prop := ∀ m, ¬ TooDeep (x m) → x' m = x m

section Outreaches

variable {α β : Type}

theorem outreaches_refl (x : Run α) : Outreaches x x := fun _ _ => rfl

theorem Outreaches.bind {x x' : Run α} {k k' : α → Run β} (hx : Outreaches x x')
    (hk : ∀ a, Outreaches (k a) (k' a)) : Outreaches (x >>= k) (x' >>= k') := by
  intro m hm
  have hdeep : ¬ TooDeep (x m) := by
    rintro ⟨n, hn⟩
    exact hm ⟨n, by simp only [Bind.bind, EStateM.bind, hn]⟩
  simp only [Bind.bind, EStateM.bind] at hm ⊢
  rw [hx m hdeep]
  cases hr : x m with
  | ok a n =>
    rw [hr] at hm
    exact hk a n hm
  | error fault n => rfl

theorem Outreaches.within {parent : ScopeId} {body body' : ScopeId → Run α}
    (h : ∀ id, Outreaches (body id) (body' id)) :
    Outreaches (Run.within parent body) (Run.within parent body') := by
  intro m hm
  rw [within_apply] at hm ⊢
  have hdeep : ¬ TooDeep (body m.forest.scopes.size (m.inside parent)) := by
    rintro ⟨n, hn⟩
    exact hm ⟨_, by rw [hn]; rfl⟩
  rw [h _ _ hdeep, within_apply]

end Outreaches

theorem Course.outreaches {eval eval' : Evaluator} (h : ∀ n s, Outreaches (eval n s) (eval' n s))
    {α : Type} {x : Evaluator → Run α} (c : Course x) : Outreaches (x eval) (x eval') := by
  induction c with
  | quiet x | log | scopes | capture => exact outreaches_refl _
  | part n scope => exact h n scope
  | seq _ _ ih ih' => exact ih.bind ih'
  | within parent _ ih => exact .within ih

/-- A computation that comes to the same with every higher bound on the depth. -/
def Rising {α : Type} (x : Nat → Run α) : Prop :=
  ∀ depth depth', depth ≤ depth' → Outreaches (x depth) (x depth')

/-- A higher bound on the depth changes nothing for a run that does not meet the lower one. -/
theorem rising_evaluate (passes : Nat) (n : Node) (s : ScopeId) :
    Rising (evaluate passes · n s) := by
  intro depth
  induction depth generalizing n s with
  | zero => exact fun _ _ m hm => absurd ⟨m, rfl⟩ hm
  | succ depth ih =>
    intro depth' hd
    cases depth' with
    | zero => cases hd
    | succ depth' =>
      refine (Course.rule passes n s).outreaches fun n s => ?_
      exact ih n s depth' (Nat.le_of_succ_le_succ hd)

section Settles

variable {α : Type} {x x' : Nat → Run α} {m : Machine} {r r' : EStateM.Result Fault Machine α}

/-- A run comes to one thing only. -/
theorem Settles.unique (hx : Rising x) (h : Settles x m r) (h' : Settles x m r') : r = r' := by
  obtain ⟨d, rfl, hd⟩ := h
  obtain ⟨d', rfl, hd'⟩ := h'
  calc x d m = x (max d d') m := (hx d _ (Nat.le_max_left d d') m hd).symm
    _ = x d' m := hx d' _ (Nat.le_max_right d d') m hd'

/-- Two runs of which one comes to something exactly if the other does, and then to something
related. -/
structure Concurs (R : EStateM.Result Fault Machine α → EStateM.Result Fault Machine α → Prop)
    (x x' : Nat → Run α) (m : Machine) : Prop where
  settles_iff : (∃ r, Settles x m r) ↔ ∃ r', Settles x' m r'
  related : ∀ r r', Settles x m r → Settles x' m r' → R r r'

theorem concurs_of_settles
    {R : EStateM.Result Fault Machine α → EStateM.Result Fault Machine α → Prop}
    (hx' : Rising x') (hto : ∀ r, Settles x m r → ∃ r', Settles x' m r' ∧ R r r')
    (hfrom : ∀ r', Settles x' m r' → ∃ r, Settles x m r) : Concurs R x x' m := by
  refine ⟨⟨?_, ?_⟩, ?_⟩
  · rintro ⟨r, hr⟩
    obtain ⟨r', hr', -⟩ := hto r hr
    exact ⟨r', hr'⟩
  · rintro ⟨r', hr'⟩
    exact hfrom r' hr'
  · intro r r' hr hr'
    obtain ⟨u, hu, hru⟩ := hto r hr
    exact hu.unique hx' hr' ▸ hru

end Settles

end Script
