import Script.Text.Cut
import Mathlib.Data.List.Infix
import Mathlib.Tactic.SplitIfs

/-!
# Where texts are cut

Pairs are the text again and all but the last have two characters. A cut goes around the leftmost
occurrence of a pattern, and splitting goes on behind every occurrence that it finds: the pieces
with the separators between them are the text again, none has a separator in it, and together they
are the text without the occurrences that were found. None of this depends on what the characters
are, so texts that correspond character by character are cut alike.
-/
namespace Script.Text

variable {α β : Type}

theorem pairsFrom_eq (done : List (List α)) (cs : List α) :
    pairsFrom done cs = done.reverse ++ pairs cs := by
  induction cs using List.twoStepInduction generalizing done with
  | nil => simp [pairs, pairsFrom]
  | singleton c => simp [pairs, pairsFrom]
  | cons_cons c d cs ih _ => rw [pairs, pairsFrom, pairsFrom, ih, ih [[c, d]]]; simp

theorem pairs_cons_cons (c d : α) (cs : List α) : pairs (c :: d :: cs) = [c, d] :: pairs cs :=
  pairsFrom_eq [[c, d]] cs

/-- Pieces of two, but for a last one that may have a single part. -/
structure TwoByTwo (pieces : List (List α)) : Prop where
  inner : ∀ p ∈ pieces.dropLast, p.length = 2
  last : ∀ p ∈ pieces.getLast?, p.length = 1 ∨ p.length = 2

theorem pairs_eq_nil {cs : List α} : pairs cs = [] ↔ cs = [] := by
  match cs with
  | [] => simp [pairs, pairsFrom]
  | [c] => simp [pairs, pairsFrom]
  | c :: d :: cs => simp [pairs_cons_cons]

theorem flatten_pairs (cs : List α) : (pairs cs).flatten = cs := by
  induction cs using List.twoStepInduction with
  | nil => rfl
  | singleton c => rfl
  | cons_cons c d cs ih _ => simp [pairs_cons_cons, ih]

theorem pairs_twoByTwo (cs : List α) : TwoByTwo (pairs cs) := by
  induction cs using List.twoStepInduction with
  | nil => exact ⟨by simp [pairs, pairsFrom], by simp [pairs, pairsFrom]⟩
  | singleton c => exact ⟨by simp [pairs, pairsFrom], by simp [pairs, pairsFrom]⟩
  | cons_cons c d cs ih _ =>
    rw [pairs_cons_cons]
    cases h : pairs cs with
    | nil => exact ⟨by simp, by simp⟩
    | cons p ps =>
      rw [h] at ih
      refine ⟨?_, by simpa using ih.last⟩
      rw [List.dropLast_cons_of_ne_nil (List.cons_ne_nil p ps)]
      exact List.forall_mem_cons.mpr ⟨rfl, ih.inner⟩

theorem pairs_map (f : α → β) (cs : List α) : pairs (cs.map f) = (pairs cs).map (List.map f) := by
  induction cs using List.twoStepInduction with
  | nil => rfl
  | singleton c => rfl
  | cons_cons c d cs ih _ => simp [pairs_cons_cons, ih]

/-- A text is cut around the leftmost occurrence of a pattern. -/
structure CutAround (pattern cs before after : List α) : Prop where
  joined : cs = before ++ pattern ++ after
  leftmost : ∀ {p q}, cs = p ++ pattern ++ q → before.length ≤ p.length

theorem CutAround.at_front {pattern cs : List α} (h : pattern <+: cs) :
    CutAround pattern cs [] (cs.drop pattern.length) := by
  obtain ⟨after, rfl⟩ := h
  refine ⟨?_, fun _ => Nat.zero_le _⟩
  rw [List.drop_left, List.nil_append]

theorem CutAround.cons {pattern cs before after : List α} {c : α} (hc : ¬ pattern <+: c :: cs)
    (h : CutAround pattern cs before after) : CutAround pattern (c :: cs) (c :: before) after := by
  refine ⟨by rw [h.joined]; rfl, ?_⟩
  intro p q hpq
  cases p with
  | nil => exact absurd ⟨q, hpq.symm⟩ hc
  | cons d p =>
    rw [List.cons_append, List.cons_append, List.cons.injEq] at hpq
    exact Nat.succ_le_succ (h.leftmost hpq.2)

/-- A text in pieces: a separator ends a piece wherever the text goes on with one, and what it goes
on with otherwise belongs to a piece. -/
inductive Splits (sep : List α) : List α → List (List α) → Prop
  | done : Splits sep [] [[]]
  | found {cs ps} (h : Splits sep cs ps) : Splits sep (sep ++ cs) ([] :: ps)
  | passed {c cs p ps} (hc : ¬ sep <+: c :: cs) (h : Splits sep cs (p :: ps)) :
      Splits sep (c :: cs) ((c :: p) :: ps)

/-- A text without the separators that are found in it from left to right. -/
inductive Stripped (sep : List α) : List α → List α → Prop
  | done : Stripped sep [] []
  | found {cs ds} (h : Stripped sep cs ds) : Stripped sep (sep ++ cs) ds
  | passed {c cs ds} (hc : ¬ sep <+: c :: cs) (h : Stripped sep cs ds) :
      Stripped sep (c :: cs) (c :: ds)

/-- Pieces with separators in front of them and behind each of them, at least one between two. -/
def Separated (sep : List α) (ps : List (List α)) (cs : List α) : Prop :=
  ∃ (front : Nat) (behind : List Nat), behind.length = ps.length ∧
    (∀ k ∈ behind.dropLast, 1 ≤ k) ∧
    cs = (List.replicate front sep).flatten ++
      (List.zipWith (fun p k => p ++ (List.replicate k sep).flatten) ps behind).flatten

/-- Pieces with a separator between any two are separated, whether those that are empty count or
not. -/
theorem separated_intercalate (sep : List α) {ps : List (List α)} (h : ps ≠ []) :
    Separated sep (ps.filter (!·.isEmpty)) (sep.intercalate ps) := by
  induction ps with
  | nil => exact absurd rfl h
  | cons p ps ih =>
    cases ps with
    | nil =>
      cases p with
      | nil => exact ⟨0, [], rfl, by simp, by simp [List.intercalate]⟩
      | cons c p => exact ⟨0, [0], rfl, by simp, by simp [List.intercalate]⟩
    | cons q ps =>
      obtain ⟨front, behind, hlength, hinner, hjoined⟩ := ih (List.cons_ne_nil q ps)
      rw [List.intercalate_cons_cons, hjoined]
      cases p with
      | nil => exact ⟨front + 1, behind, hlength, hinner, by simp [List.replicate_succ]⟩
      | cons c p =>
        refine ⟨0, (front + 1) :: behind, congrArg (· + 1) hlength, ?_, ?_⟩
        · cases behind with
          | nil => simp
          | cons k behind =>
            rw [List.dropLast_cons_of_ne_nil (List.cons_ne_nil k behind)]
            exact List.forall_mem_cons.mpr ⟨Nat.le_add_left 1 front, hinner⟩
        · simp [List.replicate_succ]

namespace Splits

variable {sep cs p : List α} {ps : List (List α)}

theorem stripped (h : Splits sep cs ps) : Stripped sep cs ps.flatten := by
  induction h with
  | done => exact .done
  | found _ ih => exact .found ih
  | passed hc _ ih => exact .passed hc ih

theorem head_prefix (h : Splits sep cs (p :: ps)) : p <+: cs := by
  generalize hq : p :: ps = qs at h
  induction h generalizing p ps with
  | done => cases hq; exact List.prefix_rfl
  | found _ _ => cases hq; exact List.nil_prefix
  | passed _ _ ih =>
    cases hq
    exact (List.prefix_cons_inj _).mpr (ih rfl)

/-- No piece has a separator in it. -/
theorem not_infix (h : Splits sep cs ps) (hsep : sep ≠ []) : ∀ p ∈ ps, ¬ sep <:+: p := by
  have hnil : ¬ sep <:+: [] := by rwa [List.infix_nil]
  induction h with
  | done => simpa using hnil
  | found _ ih => exact List.forall_mem_cons.mpr ⟨hnil, ih⟩
  | passed hc h ih =>
    obtain ⟨hp, hps⟩ := List.forall_mem_cons.mp ih
    refine List.forall_mem_cons.mpr ⟨?_, hps⟩
    rw [List.infix_cons_iff]
    rintro (hfront | hinside)
    · exact hc (hfront.trans ((List.prefix_cons_inj _).mpr h.head_prefix))
    · exact hp hinside

theorem ne_nil (h : Splits sep cs ps) : ps ≠ [] := by
  cases h <;> exact List.cons_ne_nil _ _

theorem joined (h : Splits sep cs ps) : cs = sep.intercalate ps := by
  induction h with
  | done => rfl
  | found h ih =>
    obtain ⟨p, ps, rfl⟩ := List.exists_cons_of_ne_nil h.ne_nil
    rw [List.intercalate_cons_cons, ← ih]
    rfl
  | @passed c cs p ps hc h ih =>
    cases ps with
    | nil => simp [ih, List.intercalate]
    | cons q ps =>
      rw [ih, List.intercalate_cons_cons, List.intercalate_cons_cons]
      rfl

theorem separated (h : Splits sep cs ps) : Separated sep (ps.filter (!·.isEmpty)) cs := by
  have hseparated := separated_intercalate sep h.ne_nil
  rwa [← h.joined] at hseparated

end Splits

variable [DecidableEq α] [DecidableEq β]

theorem cutFrom_eq (pattern seen cs : List α) :
    cutFrom pattern seen cs = (cut? pattern cs).map (Prod.map (seen.reverse ++ ·) id) := by
  induction cs generalizing seen with
  | nil =>
    rw [cut?, cutFrom, cutFrom]
    split_ifs <;> simp
  | cons c cs ih =>
    rw [cut?, cutFrom, cutFrom, ih, ih [c]]
    split_ifs
    · simp
    · cases cut? pattern cs <;> simp [Prod.map]

theorem cut?_nil (pattern : List α) :
    cut? pattern [] = if pattern = [] then some ([], []) else none := rfl

theorem cut?_cons (pattern : List α) (c : α) (cs : List α) :
    cut? pattern (c :: cs) = if pattern.isPrefixOf (c :: cs)
      then some ([], (c :: cs).drop pattern.length)
      else (cut? pattern cs).map (Prod.map (c :: ·) id) := by
  rw [cut?, cutFrom, cutFrom_eq]
  rfl

/-- A pattern that occurs is cut out where it is leftmost. -/
theorem cut?_cases (pattern cs : List α) :
    (∃ before after, cut? pattern cs = some (before, after) ∧ CutAround pattern cs before after) ∨
      (cut? pattern cs = none ∧ ¬ pattern <:+: cs) := by
  induction cs with
  | nil =>
    rw [cut?_nil, List.infix_nil]
    split_ifs with h
    · exact .inl ⟨[], [], rfl, by simp [h], by simp⟩
    · exact .inr ⟨rfl, h⟩
  | cons c cs ih =>
    rw [cut?_cons]
    split_ifs with h
    · exact .inl ⟨_, _, rfl, .at_front (List.isPrefixOf_iff_prefix.mp h)⟩
    · rw [List.isPrefixOf_iff_prefix] at h
      rcases ih with ⟨before, after, hcut, haround⟩ | ⟨hcut, hnot⟩
      · exact .inl ⟨c :: before, after, by rw [hcut]; rfl, haround.cons h⟩
      · refine .inr ⟨by rw [hcut]; rfl, ?_⟩
        rw [List.infix_cons_iff]
        exact not_or.mpr ⟨h, hnot⟩

/-- What is left without the leftmost occurrence of a pattern: the text itself if there is none. -/
theorem eraseFirst_cases (pattern cs : List α) :
    (∃ before after, eraseFirst pattern cs = before ++ after ∧
      CutAround pattern cs before after) ∨
      (eraseFirst pattern cs = cs ∧ ¬ pattern <:+: cs) := by
  rcases cut?_cases pattern cs with ⟨before, after, hcut, haround⟩ | ⟨hcut, hnot⟩
  · exact .inl ⟨before, after, by rw [eraseFirst, hcut], haround⟩
  · exact .inr ⟨by rw [eraseFirst, hcut], hnot⟩

section Corresponding

variable {f : α → β} (hf : Function.Injective f)

include hf

theorem isPrefixOf_map (pattern cs : List α) :
    (pattern.map f).isPrefixOf (cs.map f) = pattern.isPrefixOf cs := by
  rw [Bool.eq_iff_iff, List.isPrefixOf_iff_prefix, List.isPrefixOf_iff_prefix]
  exact List.prefix_map_iff_of_injective hf

theorem cut?_map (pattern cs : List α) :
    cut? (pattern.map f) (cs.map f) =
      (cut? pattern cs).map (Prod.map (List.map f) (List.map f)) := by
  induction cs with
  | nil => simp [cut?_nil, apply_ite]
  | cons c cs ih =>
    have hstart := isPrefixOf_map hf pattern (c :: cs)
    rw [List.map_cons] at hstart ⊢
    rw [cut?_cons, cut?_cons, hstart, ih]
    split_ifs
    · simp
    · cases cut? pattern cs <;> simp [Prod.map]

theorem eraseFirst_map (pattern cs : List α) :
    eraseFirst (pattern.map f) (cs.map f) = (eraseFirst pattern cs).map f := by
  rw [eraseFirst, eraseFirst, cut?_map hf]
  cases cut? pattern cs <;> simp

end Corresponding

theorem splitFrom_eq (sep : List α) (skip : Nat) (piece : List α) (done : List (List α))
    (cs : List α) : splitFrom sep skip piece done cs =
      done.reverse ++ (splitOn sep (cs.drop skip)).modifyHead (piece.reverse ++ ·) := by
  induction cs generalizing skip piece done with
  | nil => simp [splitOn, splitFrom]
  | cons c cs ih =>
    cases skip with
    | succ skip => rw [splitFrom, ih, List.drop_succ_cons]
    | zero =>
      rw [List.drop_zero, splitOn, splitFrom, splitFrom]
      split_ifs
      · rw [ih, ih _ _ [[].reverse]]
        simp
      · rw [ih, ih _ [c]]
        simp [Function.comp_def]

theorem splitOn_cons (sep : List α) (c : α) (cs : List α) :
    splitOn sep (c :: cs) = if sep.isPrefixOf (c :: cs)
      then [] :: splitOn sep (cs.drop (sep.length - 1))
      else (splitOn sep cs).modifyHead (c :: ·) := by
  rw [splitOn, splitFrom, splitFrom_eq, splitFrom_eq]
  split_ifs
  · cases splitOn sep (cs.drop (sep.length - 1)) <;> simp
  · simp

theorem splitOn_map {f : α → β} (hf : Function.Injective f) (sep cs : List α) :
    splitOn (sep.map f) (cs.map f) = (splitOn sep cs).map (List.map f) := by
  induction h : cs.length using Nat.strongRecOn generalizing cs with
  | ind n ih =>
    cases cs with
    | nil => rfl
    | cons c cs =>
      have hstart := isPrefixOf_map hf sep (c :: cs)
      rw [List.length_cons] at h
      rw [List.map_cons] at hstart ⊢
      rw [splitOn_cons, splitOn_cons, hstart, List.length_map, ← List.map_drop,
        ih _ (by rw [List.length_drop]; omega) _ rfl, ih _ (by omega) _ rfl]
      split_ifs
      · rfl
      · cases splitOn sep cs <;> simp

theorem splitOn_splits {sep : List α} (hsep : sep ≠ []) (cs : List α) :
    Splits sep cs (splitOn sep cs) := by
  induction h : cs.length using Nat.strongRecOn generalizing cs with
  | ind n ih =>
    cases cs with
    | nil => exact .done
    | cons c cs =>
      rw [List.length_cons] at h
      rw [splitOn_cons]
      split_ifs with hfound
      · obtain ⟨d, sep, rfl⟩ := List.exists_cons_of_ne_nil hsep
        obtain ⟨rest, hrest⟩ := List.isPrefixOf_iff_prefix.mp hfound
        rw [List.cons_append, List.cons.injEq] at hrest
        obtain ⟨rfl, rfl⟩ := hrest
        rw [List.length_append] at h
        rw [List.length_cons, Nat.add_sub_cancel, List.drop_left]
        exact .found (ih _ (by omega) rest rfl)
      · rw [List.isPrefixOf_iff_prefix] at hfound
        have hsplits := ih _ (by omega) cs rfl
        cases hps : splitOn sep cs with
        | nil =>
          rw [hps] at hsplits
          cases hsplits
        | cons p ps =>
          rw [hps] at hsplits
          exact .passed hfound hsplits

end Script.Text
