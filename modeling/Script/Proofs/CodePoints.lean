import Script.Proofs.Cuts
import Script.Proofs.JsonText
import Script.Proofs.Results

/-!
# Strings by their code points

A string that is a text is given by its code points, whether they are all characters or not. What
operators do with such strings they do with the lists of their code points.
-/
namespace Script

open Text (Code)

theorem Text.Code.char_injective : Function.Injective Code.char := fun _ _ h => Code.char.inj h

theorem Text.Code.eq_map_of_chars? {cs : List Code} {chars : List Char}
    (h : Code.chars? cs = some chars) : cs = chars.map .char := by
  induction cs generalizing chars with
  | nil =>
    cases h
    rfl
  | cons c cs ih =>
    cases c with
    | half distance => simp [Code.chars?, Code.char?] at h
    | char c =>
      simp only [Code.chars?, List.mapM_cons, Code.char?, Option.bind_eq_bind, Option.bind_some,
        Option.bind_eq_some_iff, Option.pure_def, Option.some.injEq] at h
      obtain ⟨rest, hrest, rfl⟩ := h
      rw [ih hrest, List.map_cons]

namespace Node

theorem ofCodes_map_char (chars : List Char) :
    ofCodes (chars.map .char) = .text (String.ofList chars) := by
  simp [ofCodes, Json.chars?_map_char]

/-- A text is kept by its characters, or by its code points if these are not all characters. -/
theorem ofCodes_cases (cs : List Code) :
    (∃ chars : List Char, cs = chars.map .char) ∨ ofCodes cs = .codes cs := by
  cases h : Code.chars? cs with
  | some chars => exact .inl ⟨chars, Code.eq_map_of_chars? h⟩
  | none => exact .inr (by rw [ofCodes, h])

@[simp] theorem codes?_ofCodes (cs : List Code) : (ofCodes cs).codes? = some cs := by
  rcases ofCodes_cases cs with ⟨chars, rfl⟩ | h
  · rw [ofCodes_map_char]
    simp [codes?, Code.ofText]
  · rw [h]
    rfl

theorem ofCodes_ofText (s : String) : ofCodes (Code.ofText s) = .text s := by
  rw [Code.ofText, ofCodes_map_char, String.ofList_toList]

theorem eq_ofText {cs : List Code} {s : String} (h : ofCodes cs = .text s) :
    cs = Code.ofText s := by
  have hcodes := codes?_ofCodes cs
  rw [h] at hcodes
  exact (Option.some.inj hcodes).symm

theorem ofCodes_ne {cs : List Code} {n : Node} (h : n.codes? = none) : ofCodes cs ≠ n := by
  rintro rfl
  cases (codes?_ofCodes cs).symm.trans h

theorem isSet_ofCodes (cs : List Code) : (ofCodes cs).isSet = !cs.isEmpty := by
  rcases ofCodes_cases cs with ⟨chars, rfl⟩ | h
  · rw [ofCodes_map_char]
    cases chars <;> simp [isSet]
  · cases cs with
    | nil => cases h
    | cons c cs =>
      rw [h]
      rfl

end Node

def Value.ofCodes (cs : List Code) : Value := .string (.ofCodes cs)

theorem Value.ofCodes_injective : Function.Injective Value.ofCodes := by
  intro s t h
  have hcodes := congrArg Node.codes? (Value.string.inj h)
  simpa using hcodes

namespace Content

open Node (ofCodes_map_char ofCodes_ofText ofCodes_cases eq_ofText ofCodes_ne)

theorem parts_ofCodes (cs : List Code) :
    parts (.ofCodes cs) = .ok (cs.map fun c => .ofCodes [c]) := by
  rcases ofCodes_cases cs with ⟨chars, rfl⟩ | h
  · have hone (c : Char) : Node.ofCodes [.char c] = .text (String.singleton c) :=
      (ofCodes_map_char [c]).trans (by rw [String.singleton_eq_ofList])
    rw [ofCodes_map_char]
    simp [parts, hone]
  · rw [h]
    rfl

theorem keep_ofCodes (choose : {α : Type} → List α → List α)
    (h : ∀ chars : List Char, choose (chars.map Code.char) = (choose chars).map Code.char)
    (cs : List Code) : keep choose (.ofCodes cs) = .ok (.ofCodes (choose cs)) := by
  rcases ofCodes_cases cs with ⟨chars, rfl⟩ | hcs
  · rw [h, ofCodes_map_char, ofCodes_map_char]
    simp [keep]
  · rw [hcs]
    rfl

theorem pairs_ofCodes (cs : List Code) :
    pairs (.ofCodes cs) = .ok ((Text.pairs cs).map .ofCodes) := by
  rcases ofCodes_cases cs with ⟨chars, rfl⟩ | h
  · rw [Text.pairs_map, ofCodes_map_char]
    simp [pairs, ofCodes_map_char, Function.comp_def]
  · rw [h]
    rfl

theorem copies_ofCodes (n : Nat) (cs : List Code) : copies n (.ofCodes cs) =
    (do copiesFit n cs.length; return .ofCodes (List.replicate n cs).flatten) := by
  have hrepeat {α : Type} (items : List α) :
      repeatList n items = (List.replicate n items).flatten := by
    cases items <;> simp [repeatList]
  rcases ofCodes_cases cs with ⟨chars, rfl⟩ | h
  · rw [← List.map_replicate, ← List.map_flatten, ofCodes_map_char, ofCodes_map_char]
    simp [copies, hrepeat]
  · rw [h]
    simp [copies, hrepeat]

theorem join_ofCodes (a b : List Code) :
    join (.ofCodes a) (.ofCodes b) = .ok (.ofCodes (a ++ b)) := by
  unfold join
  split
  · rename_i s t hs ht
    rw [eq_ofText hs, eq_ofText ht, Code.ofText, Code.ofText, ← List.map_append,
      ← String.toList_append, ← Code.ofText, ofCodes_ofText]
  · rename_i hs _
    exact absurd hs (ofCodes_ne rfl)
  · simp only [Node.codes?_ofCodes]

theorem without_ofCodes (cs ds : List Code) :
    without (.ofCodes cs) (.ofCodes ds) = .ok (.ofCodes (Text.eraseFirst ds cs)) := by
  unfold without
  split
  · rename_i s t hs ht
    rw [eq_ofText hs, eq_ofText ht, Code.ofText, Code.ofText,
      Text.eraseFirst_map Code.char_injective, ofCodes_map_char]
  · simp only [Node.codes?_ofCodes]

theorem split_ofCodes_nil (cs : List Code) :
    split (.ofCodes cs) (.ofCodes []) = .ok (cs.map fun c => .ofCodes [c]) := by
  have hnil : Node.ofCodes [] = .text "" := ofCodes_ofText ""
  have hset : ∀ n ∈ cs.map fun c => Node.ofCodes [c], n.isSet = true := by
    simp [Node.isSet_ofCodes]
  rw [hnil]
  simp only [split, parts_ofCodes, ok_bind, pure_eq_ok]
  rw [List.filter_eq_self.mpr hset]

theorem pieces_map_char (sep cs : List Char) :
    pieces (sep.map Code.char) (cs.map Code.char) = (pieces sep cs).map (List.map Code.char) := by
  rw [pieces, pieces, Text.splitOn_map Code.char_injective, List.filter_map]
  simp [Function.comp_def]

theorem split_ofCodes {sep : List Code} (h : sep ≠ []) (cs : List Code) :
    split (.ofCodes cs) (.ofCodes sep) = .ok ((pieces sep cs).map .ofCodes) := by
  unfold split
  split
  · rename_i hsep
    exact absurd (eq_ofText hsep) h
  · rename_i s t hs ht
    rw [eq_ofText hs, eq_ofText ht, Code.ofText, Code.ofText, pieces_map_char]
    simp [ofCodes_map_char, Function.comp_def]
  · rename_i hsep
    exact absurd hsep (ofCodes_ne rfl)
  · rename_i hsep
    exact absurd hsep (ofCodes_ne rfl)
  · simp only [Node.codes?_ofCodes]

end Content

namespace Operator

open Value

variable (s t : List Code) {b : String} {n : Int}

theorem strings_ofCodes (i : Identity) (pieces : List (List Code)) :
    strings i (pieces.map .ofCodes) = .array i (pieces.map .ofCodes) := by
  simp [strings, ofCodes]

theorem dropLast_map {α β : Type} (f : α → β) (n : Int) (items : List α) :
    dropLast n (items.map f) = (dropLast n items).map f := by
  unfold dropLast
  split_ifs <;> simp

theorem dropFirst_map {α β : Type} (f : α → β) (n : Int) (items : List α) :
    dropFirst n (items.map f) = (dropFirst n items).map f := by
  unfold dropFirst
  split_ifs <;> simp

theorem add_texts : add (ofCodes s) (ofCodes t) = .ok (ofCodes (s ++ t)) := by
  simp [add, ofCodes, content, Content.join_ofCodes]

theorem subtract_text : subtract (ofCodes s) (ofCodes t) = .ok (ofCodes (Text.eraseFirst t s)) := by
  simp [subtract, ofCodes, Content.without_ofCodes]

theorem subtract_count (hb : (Value.number b).toInt = .ok n) :
    subtract (ofCodes s) (.number b) = .ok (ofCodes (if n = 0 then s else dropLast n s)) := by
  have hkeep := Content.keep_ofCodes (dropLast n) (fun chars => dropLast_map _ n chars) s
  simp only [subtract, ofCodes, hb, ok_bind, shorten, hkeep]
  split_ifs <;> rfl

theorem subtract_from_count (hb : (Value.number b).toInt = .ok n) :
    subtract (.number b) (ofCodes s) = .ok (ofCodes (dropFirst n s)) := by
  have hkeep := Content.keep_ofCodes (dropFirst n) (fun chars => dropFirst_map _ n chars) s
  simp [subtract, ofCodes, hb, hkeep]

theorem multiply_count (hb : (Value.number b).toInt = .ok n) :
    multiply (ofCodes s) (.number b) = (do
      Content.copiesFit n.toNat s.length
      return ofCodes (List.replicate n.toNat s).flatten) := by
  simp [multiply, ofCodes, hb, Content.copies_ofCodes]

theorem divide_count (i : Identity) (b : String) :
    divide i (ofCodes s) (.number b) = .ok (.array i ((Text.pairs s).map .ofCodes)) := by
  simp [divide, ofCodes, Content.pairs_ofCodes, ← strings_ofCodes]

theorem divide_empty (i : Identity) :
    divide i (ofCodes s) (ofCodes []) = .ok (.array i (s.map fun c => .ofCodes [c])) := by
  simp [divide, ofCodes, Content.split_ofCodes_nil, strings]

theorem divide_text (i : Identity) (ht : t ≠ []) :
    divide i (ofCodes s) (ofCodes t) = .ok (.array i ((Content.pieces t s).map .ofCodes)) := by
  simp [divide, ofCodes, Content.split_ofCodes ht, ← strings_ofCodes]

end Operator
end Script
