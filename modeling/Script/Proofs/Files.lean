import Script.Disk
import Mathlib.Data.List.TakeWhile

/-!
# Finding files

How a path reads its text, and what a disk finds after a file has been written. A path leads to the
file that was written there if it leads through the same directories as before, and writing next to
a file that exists makes no new directory.
-/
namespace Script

namespace Path

/-- Whether a text ends in a name, and neither in a slash nor in a dot behind one. -/
def EndsInName (text : String) : Prop :=
  (pieces text).getLast? ≠ some "" ∧ (pieces text).getLast? ≠ some "."

instance : DecidablePred EndsInName := fun text =>
  inferInstanceAs (Decidable ((pieces text).getLast? ≠ some "" ∧
    (pieces text).getLast? ≠ some "."))

theorem splitOn_append {cs ending : List Char} (he : '/' ∉ ending) :
    (cs ++ ending).splitOn '/' =
      (cs.splitOn '/').dropLast ++ [(cs.splitOn '/').getLast?.getD [] ++ ending] := by
  induction cs with
  | nil => simp [List.splitOn_eq_singleton he]
  | cons c cs ih =>
    obtain ⟨first, others, hs⟩ := List.exists_cons_of_ne_nil (List.splitOn_ne_nil '/' cs)
    rw [List.cons_append, List.splitOn_cons_eq_if_modifyHead, List.splitOn_cons_eq_if_modifyHead,
      ih, hs]
    by_cases hc : c = '/'
    · simp [hc]
    · cases others with
      | nil => simp [hc]
      | cons second others => simp [hc]

theorem pieces_append {ending : String} (he : '/' ∉ ending.toList) (text : String) :
    pieces (text ++ ending) =
      (pieces text).dropLast ++ [(pieces text).getLast?.getD "" ++ ending] := by
  obtain ⟨last, hl⟩ : ∃ last, (text.toList.splitOn '/').getLast? = some last :=
    ⟨_, List.getLast?_eq_some_getLast (List.splitOn_ne_nil _ _)⟩
  simp [pieces, splitOn_append he, hl, List.map_dropLast, String.ofList_append]

theorem exists_pieces {text : String} (ht : EndsInName text) :
    ∃ init last, pieces text = init ++ [last] ∧ last ≠ "" ∧ last ≠ "." := by
  obtain ⟨init, last, h⟩ := List.eq_nil_or_concat (pieces text) |>.resolve_left (by simp [pieces])
  rw [EndsInName, h] at ht
  simp only [List.concat_eq_append, List.getLast?_append, List.getLast?_singleton,
    Option.some_or, ne_eq, Option.some.injEq] at ht
  exact ⟨init, last, by simpa using h, ht.1, ht.2⟩

theorem splitOn_slashes {cs : List Char} (h : ∀ c ∈ cs, c = '/') :
    ∀ piece ∈ cs.splitOn '/', piece = [] := by
  induction cs with
  | nil => simp
  | cons c cs ih =>
    have hc := h c List.mem_cons_self
    have ht := ih fun c hc => h c (List.mem_cons_of_mem _ hc)
    simpa [List.splitOn_cons_eq_if_modifyHead, hc] using ht

theorem rootOf_append {text : String} (ht : EndsInName text) (ending : List Char) :
    rootOf (text.toList ++ ending) = rootOf text.toList := by
  obtain ⟨init, last, hp, hne, -⟩ := exists_pieces ht
  have hlt : (text.toList.takeWhile (· = '/')).length ≠ text.toList.length := by
    intro hlen
    have hall : text.toList.takeWhile (· = '/') = text.toList :=
      (List.takeWhile_sublist _).eq_of_length hlen
    have hs : ∀ c ∈ text.toList, c = '/' := by simpa using List.takeWhile_eq_self_iff.mp hall
    have hm : last ∈ pieces text := by simp [hp]
    obtain ⟨piece, hpiece, rfl⟩ := List.mem_map.mp hm
    exact hne (by rw [splitOn_slashes hs piece hpiece, String.ofList_nil])
  rw [rootOf, rootOf, List.takeWhile_append, if_neg hlt]

/-- A longer text is the path of the file whose own name is longer. -/
theorem ofText_append {text ending : String} (ht : EndsInName text) (he : '/' ∉ ending.toList) :
    ofText (text ++ ending) = (ofText text).withEnding ending := by
  obtain ⟨init, last, hp, hne, hdot⟩ := exists_pieces ht
  have hlong : last ++ ending ≠ "" ∧ last ++ ending ≠ "." := by
    refine ⟨fun h => hne (String.append_eq_empty_iff.mp h).1, fun h => ?_⟩
    have hlen : last.length + ending.length = 1 := by
      rw [← String.length_append, h]
      rfl
    have hpos : last.length ≠ 0 := fun h => hne (String.length_eq_zero_iff.mp h)
    have hnil : ending = "" := String.length_eq_zero_iff.mp (by omega)
    exact hdot (by simpa [hnil] using h)
  have hr := rootOf_append ht ending.toList
  have hn : pieces (text ++ ending) = init ++ [last ++ ending] := by
    rw [pieces_append he, hp]
    simp
  simp [ofText, withEnding, lengthen, hr, hn, hp, List.filter_append, hne, hdot, hlong]

/-- A path whose names are what a text can have between its slashes. -/
structure Proper (p : Path) : Prop where
  root : p.root = "" ∨ ∃ cs, p.root.toList = '/' :: cs
  names : ∀ name ∈ p.names, '/' ∉ name.toList ∧ name ≠ "" ∧ name ≠ "."

theorem slash_not_mem_splitOn {cs piece : List Char} (hp : piece ∈ cs.splitOn '/') :
    '/' ∉ piece := by
  induction cs generalizing piece with
  | nil => simp_all
  | cons c cs ih =>
    obtain ⟨first, others, hs⟩ := List.exists_cons_of_ne_nil (List.splitOn_ne_nil '/' cs)
    rw [List.splitOn_cons_eq_if_modifyHead] at hp
    rw [hs] at hp ih
    by_cases hc : c = '/'
    · simp only [hc, beq_self_eq_true, if_true, List.mem_cons] at hp
      rcases hp with rfl | hp
      · simp
      · exact ih (List.mem_cons.mpr hp)
    · simp only [beq_eq_false_iff_ne.mpr hc, Bool.false_eq_true, if_false, List.modifyHead_cons,
        List.mem_cons] at hp
      rcases hp with rfl | hp
      · simpa [Ne.symm hc] using ih List.mem_cons_self
      · exact ih (List.mem_cons_of_mem _ hp)

theorem ofText_proper (text : String) : (ofText text).Proper where
  root := by
    simp only [ofText, rootOf]
    split
    · exact .inl rfl
    · exact .inr ⟨_, rfl⟩
    · exact .inr ⟨_, rfl⟩
  names := by
    intro name hn
    simp only [ofText, List.mem_filter, decide_eq_true_eq] at hn
    obtain ⟨piece, hp, rfl⟩ := List.mem_map.mp hn.1
    exact ⟨by simpa using slash_not_mem_splitOn hp, hn.2⟩

theorem pieces_text {p : Path} (hp : p.Proper) (hr : p.root = "") (hn : p.names ≠ []) :
    pieces p.text = p.names := by
  have hslash : ∀ cs ∈ p.names.map String.toList, '/' ∉ cs := by
    intro cs hcs
    obtain ⟨name, hname, rfl⟩ := List.mem_map.mp hcs
    exact (hp.names name hname).1
  have hsplit := List.splitOn_intercalate '/' hslash (by simpa using hn)
  simp [pieces, text, hr, hn, String.toList_intercalate, hsplit, Function.comp_def]

/-- The way that the text of a relative path spells is its names. -/
theorem way_text {p : Path} (hp : p.Proper) (hr : p.root = "") (hn : p.names ≠ []) :
    way p.text = p.names := by
  have hsame : ∀ name ∈ p.names, (if name = "" then "." else name) = name := by
    intro name hname
    rw [if_neg (hp.names name hname).2.1]
  rw [way, pieces_text hp hr hn, List.map_congr_left hsame, List.map_id']

theorem empty_not_mem_pieces {p : Path} (hp : p.Proper) (hr : p.root = "") (hn : p.names ≠ []) :
    "" ∉ pieces p.text := by
  rw [pieces_text hp hr hn]
  exact fun h => (hp.names "" h).2.1 rfl

theorem text_ne_empty {p : Path} (hp : p.Proper) (hr : p.root = "") (hn : p.names ≠ []) :
    p.text ≠ "" := by
  intro h
  refine empty_not_mem_pieces hp hr hn ?_
  rw [h]
  decide

theorem head?_text {p : Path} (hp : p.Proper) (hr : p.root = "") (hn : p.names ≠ []) :
    p.text.toList.head? ≠ some '/' := by
  intro h
  refine empty_not_mem_pieces hp hr hn ?_
  obtain ⟨cs, hcs⟩ := List.head?_eq_some_iff.mp h
  simp [pieces, hcs, List.splitOn_cons_eq_if_modifyHead]

theorem head?_text_of_root {p : Path} (hp : p.Proper) (hr : p.root ≠ "") :
    p.text.toList.head? = some '/' := by
  obtain ⟨cs, hcs⟩ := hp.root.resolve_left hr
  simp [text, hr, hcs]

theorem steps_withEnding {p : Path} (hn : p.names ≠ []) (ending : String) :
    (p.withEnding ending).steps = lengthen p.steps ending := by
  obtain ⟨name, names, hp⟩ := List.exists_cons_of_ne_nil hn
  by_cases hr : p.root = ""
  · simp [steps, withEnding, hr]
  · simp [steps, withEnding, lengthen, hr, hp]

theorem names_ofText_ne_nil {text : String} (ht : EndsInName text) : (ofText text).names ≠ [] := by
  obtain ⟨init, last, hp, hne, hdot⟩ := exists_pieces ht
  simp [ofText, hp, List.filter_append, hne, hdot]

end Path

namespace Disk

theorem lookup_replaced (files : List (List String × String)) (names other : List String)
    (text : String) :
    (files.map fun f => if f.1 = names then (names, text) else f).lookup other =
      if other = names then (files.lookup names).map fun _ => text else files.lookup other := by
  induction files with
  | nil => simp
  | cons f files ih =>
    obtain ⟨key, old⟩ := f
    by_cases hk : key = names
    · by_cases ho : other = names
      · simp [hk, ho]
      · simp [hk, ho, List.lookup_cons, beq_eq_false_iff_ne.mpr ho, ih]
    · by_cases ho : other = names
      · have hb : (names == key) = false := beq_eq_false_iff_ne.mpr (Ne.symm hk)
        rw [ho] at ih ⊢
        simp [hk, List.lookup_cons, hb, ih]
      · simp [hk, ho, List.lookup_cons, ih]

/-- A disk has a written file with its new text, and every other file as before. -/
theorem file?_write (d : Disk) (names other : List String) (text : String) :
    (d.write names text).file? other = if other = names then some text else d.file? other := by
  cases h : d.file? names with
  | none =>
    have hd : d.files.lookup names = none := h
    have hw : (d.write names text).files = d.files ++ [(names, text)] := by simp [write, h]
    by_cases ho : other = names
    · simp [file?, hw, List.lookup_append, ho, hd]
    · have hb : (other == names) = false := beq_eq_false_iff_ne.mpr ho
      rw [file?, hw, List.lookup_append, List.lookup_cons, hb, if_neg ho]
      simp [file?]
  | some old =>
    have hd : d.files.lookup names = some old := h
    have hw : (d.write names text).files =
        d.files.map fun f => if f.1 = names then (names, text) else f := by simp [write, h]
    rw [file?, hw, lookup_replaced, hd]
    rfl

theorem isDirectory_iff {d : Disk} {dir : List String} :
    d.isDirectory dir = true ↔
      dir = [] ∨ ∃ names, (d.file? names).isSome = true ∧ dir <+: names ∧ names ≠ dir := by
  have hf (names : List String) :
      (d.file? names).isSome = true ↔ ∃ f ∈ d.files, f.1 = names := by
    rw [file?, List.lookup_isSome_iff]
    simp only [beq_iff_eq, @eq_comm _ names]
  simp only [isDirectory, hf]
  simp

/-- Whether all directories on the way to some names are there. -/
def Reaches (d : Disk) (names : List String) : Prop :=
  ∀ dir, dir <+: names → names ≠ dir → d.isDirectory dir = true

theorem reaches_of_file? {d : Disk} {names : List String} {text : String}
    (h : d.file? names = some text) : d.Reaches names := by
  intro dir hp hne
  exact isDirectory_iff.mpr (.inr ⟨names, by rw [h]; rfl, hp, hne⟩)

theorem reaches_lengthen {d : Disk} {names : List String} (h : d.Reaches names) (hn : names ≠ [])
    (ending : String) : d.Reaches (Path.lengthen names ending) := by
  intro dir hp hne
  have hinit : dir <+: names.dropLast := by
    rw [Path.lengthen, List.prefix_concat_iff] at hp
    exact hp.resolve_left (Ne.symm hne)
  refine h dir (hinit.trans (List.dropLast_prefix names)) ?_
  rintro rfl
  have hle := hinit.length_le
  have hpos := List.length_pos_iff.mpr hn
  rw [List.length_dropLast] at hle
  omega

/-- Writing where all directories are there makes none. -/
theorem isDirectory_write {d : Disk} {names : List String} (h : d.Reaches names) (text : String)
    (dir : List String) : (d.write names text).isDirectory dir = d.isDirectory dir := by
  rw [Bool.eq_iff_iff]
  constructor
  · intro hd
    rcases isDirectory_iff.mp hd with hd | ⟨other, hf, hp, hne⟩
    · exact isDirectory_iff.mpr (.inl hd)
    · rw [file?_write] at hf
      by_cases ho : other = names
      · subst ho
        exact h dir hp hne
      · rw [if_neg ho] at hf
        exact isDirectory_iff.mpr (.inr ⟨other, hf, hp, hne⟩)
  · intro hd
    rcases isDirectory_iff.mp hd with hd | ⟨other, hf, hp, hne⟩
    · exact isDirectory_iff.mpr (.inl hd)
    · refine isDirectory_iff.mpr (.inr ⟨other, ?_, hp, hne⟩)
      rw [file?_write]
      split
      · rfl
      · exact hf

/-- Whether a name leads to a file or a directory of its own, and a disk can have it. -/
def IsEntry (name : String) : Prop :=
  name ≠ "." ∧ name ≠ ".." ∧ name.utf8ByteSize ≤ nameLimit

/-- The directory inside that steps lead to, through directories only. -/
inductive Enters (d : Disk) : Option (List String) → List String → List String → Prop
  | here (dir) : Enters d (some dir) [] dir
  | stay {from? rest dir} (h : Enters d from? rest dir) : Enters d from? ("." :: rest) dir
  | up {from? rest dir}
      (h : Enters d (from?.bind fun here => if here.isEmpty then none else some here.dropLast)
        rest dir) : Enters d from? (".." :: rest) dir
  | down {here name rest dir} (he : IsEntry name) (hf : d.file? (here ++ [name]) = none)
      (hd : d.isDirectory (here ++ [name]) = true) (h : Enters d (some (here ++ [name])) rest dir) :
      Enters d (some here) (name :: rest) dir

theorem follow_dot (d : Disk) (from? : Option (List String)) (rest : List String) :
    d.follow from? ("." :: rest) = d.follow from? rest := by
  rw [follow.eq_def]
  exact if_pos rfl

theorem follow_dots (d : Disk) (from? : Option (List String)) (rest : List String) :
    d.follow from? (".." :: rest) =
      d.follow (from?.bind fun here => if here.isEmpty then none else some here.dropLast) rest := by
  rw [follow.eq_def]
  exact (if_neg (by decide)).trans (if_pos rfl)

theorem follow_entry {d : Disk} {here rest : List String} {name : String} (he : IsEntry name) :
    d.follow (some here) (name :: rest) =
      match d.file? (here ++ [name]) with
      | some text => if rest.isEmpty then .file (here ++ [name]) text else .notDirectory
      | none =>
          if d.isDirectory (here ++ [name]) then d.follow (some (here ++ [name])) rest
          else .missing := by
  cases hf : d.file? (here ++ [name]) with
  | some text => simp [follow, he.1, he.2.1, Nat.not_lt.mpr he.2.2, hf]
  | none => simp [follow, he.1, he.2.1, Nat.not_lt.mpr he.2.2, hf]

theorem Enters.follow_append {d : Disk} {from? : Option (List String)} {steps dir : List String}
    (h : d.Enters from? steps dir) (rest : List String) :
    d.follow from? (steps ++ rest) = d.follow (some dir) rest := by
  induction h with
  | here dir => rfl
  | stay _ ih => rw [List.cons_append, follow_dot, ih]
  | up _ ih => rw [List.cons_append, follow_dots, ih]
  | down he hf hd _ ih =>
    rw [List.cons_append, follow_entry he, hf, ← ih]
    simp [hd]

/-- A way that leads to a file ends in an entry of a directory. The induction is on the steps: those
before the last one lead through directories. -/
theorem follow_file {d : Disk} {from? : Option (List String)} {steps names : List String}
    {text : String} (h : d.follow from? steps = .file names text) :
    ∃ init last dir, steps = init ++ [last] ∧ d.Enters from? init dir ∧ IsEntry last ∧
      names = dir ++ [last] ∧ d.file? names = some text := by
  induction steps generalizing from? with
  | nil => cases h
  | cons name rest ih =>
    by_cases hdot : name = "."
    · subst hdot
      rw [follow_dot] at h
      obtain ⟨init, last, dir, rfl, he, hrest⟩ := ih h
      exact ⟨"." :: init, last, dir, rfl, .stay he, hrest⟩
    by_cases hup : name = ".."
    · subst hup
      rw [follow_dots] at h
      obtain ⟨init, last, dir, rfl, he, hrest⟩ := ih h
      exact ⟨".." :: init, last, dir, rfl, .up he, hrest⟩
    by_cases hlen : nameLimit < name.utf8ByteSize
    · rw [follow.eq_def] at h
      simp [hdot, hup, hlen] at h
    have hentry : IsEntry name := ⟨hdot, hup, Nat.not_lt.mp hlen⟩
    cases from? with
    | none =>
      rw [follow, if_neg hdot, if_neg hup, if_neg hlen] at h
      cases h
    | some here =>
      rw [follow_entry hentry] at h
      cases hf : d.file? (here ++ [name]) with
      | some found =>
        rw [hf] at h
        by_cases hr : rest.isEmpty = true
        · simp only [hr, if_true, Target.file.injEq] at h
          obtain rfl := List.isEmpty_iff.mp hr
          exact ⟨[], name, here, rfl, .here here, hentry, h.1.symm, by rw [← h.1, hf, h.2]⟩
        · simp [hr] at h
      | none =>
        rw [hf] at h
        by_cases hd : d.isDirectory (here ++ [name]) = true
        · simp only [hd, if_true] at h
          obtain ⟨init, last, dir, rfl, he, hrest⟩ := ih h
          exact ⟨name :: init, last, dir, rfl, .down hentry hf hd he, hrest⟩
        · simp [hd] at h

/-- Whether some names can be written: no directory has them. -/
def Fits (d : Disk) (names : List String) : Prop :=
  d.file? names = none → d.isDirectory names = false

/-- Writing a file closes no way through directories. -/
theorem Enters.write {d : Disk} {names : List String} (hr : d.Reaches names) (hn : d.Fits names)
    {from? : Option (List String)} {steps dir : List String} (h : d.Enters from? steps dir)
    (text : String) : (d.write names text).Enters from? steps dir := by
  induction h with
  | here dir => exact .here dir
  | stay _ ih => exact .stay ih
  | up _ ih => exact .up ih
  | @down here name rest dir he hf hd _ ih =>
    have hne : here ++ [name] ≠ names := by
      rintro rfl
      rw [hn hf] at hd
      cases hd
    refine .down he ?_ ?_ ih
    · rw [file?_write, if_neg hne, hf]
    · rw [isDirectory_write hr, hd]

theorem not_enters_none {d : Disk} {steps dir : List String} : ¬d.Enters none steps dir := by
  intro h
  induction steps with
  | nil => cases h
  | cons name rest ih =>
    cases h with
    | stay h => exact ih h
    | up h => exact ih h

/-- How a path leads to a directory and a last step by its names. -/
structure Leads (d : Disk) (p : Path) (dir : List String) (last : String) : Prop where
  root : p.root = ""
  size : p.text.utf8ByteSize ≤ pathLimit
  way : ∃ init, p.names = init ++ [last] ∧ d.Enters (some []) init dir

/-- A file is found by the path itself, or by its names. -/
theorem find_file {d : Disk} {p : Path} (hp : p.Proper) {names : List String} {text : String}
    (h : d.find p = .file names text) :
    d.file? names = some text ∧
      (names = p.steps ∨ d.file? p.steps = none ∧
        ∃ dir last, names = dir ++ [last] ∧ IsEntry last ∧ d.Leads p dir last) := by
  rw [find] at h
  cases hf : d.file? p.steps with
  | some found =>
    rw [hf] at h
    obtain ⟨rfl, rfl⟩ := Target.file.inj h
    exact ⟨hf, .inl rfl⟩
  | none =>
    simp only [hf, locate] at h
    split at h
    · cases h
    split at h
    · cases h
    rename_i hsize
    obtain ⟨init, last, dir, hway, he, hentry, hnames, hfile⟩ := follow_file h
    have hroot : p.root = "" := by
      by_contra hr
      rw [if_pos (Path.head?_text_of_root hp hr)] at he
      exact not_enters_none he
    have hne : p.names ≠ [] := by
      intro hnil
      have hdot : Path.way p.text = ["."] := by simp [Path.text, hroot, hnil]; decide
      rw [hdot] at hway
      have hlast : last ∈ ["."] := by simp [hway]
      exact hentry.1 (List.mem_singleton.mp hlast)
    rw [if_neg (Path.head?_text hp hroot hne)] at he
    rw [Path.way_text hp hroot hne] at hway
    have hleads : d.Leads p dir last := ⟨hroot, Nat.not_lt.mp hsize, init, hway, he⟩
    exact ⟨hfile, .inr ⟨rfl, dir, last, hnames, hentry, hleads⟩⟩

theorem Leads.locate {d : Disk} {p : Path} {dir : List String} {last : String} (hp : p.Proper)
    (h : d.Leads p dir last) : d.locate p.text = d.follow (some dir) [last] := by
  obtain ⟨init, hn, he⟩ := h.way
  have hne : p.names ≠ [] := by simp [hn]
  have hempty : p.text.isEmpty ≠ true := by simpa using Path.text_ne_empty hp h.root hne
  rw [Disk.locate, if_neg hempty, if_neg (Nat.not_lt.mpr h.size),
    if_neg (Path.head?_text hp h.root hne), Path.way_text hp h.root hne, hn, he.follow_append]

theorem Leads.find {d : Disk} {p : Path} {dir : List String} {last text : String} (hp : p.Proper)
    (h : d.Leads p dir last) (he : IsEntry last) (hf : d.file? (dir ++ [last]) = some text)
    (hs : d.file? p.steps = none ∨ p.steps = dir ++ [last]) :
    d.find p = .file (dir ++ [last]) text := by
  rw [Disk.find]
  rcases hs with hs | hs
  · simp only [hs, h.locate hp, follow_entry he, hf]
    rfl
  · rw [hs, hf]

theorem Leads.write {d : Disk} {names : List String} (hr : d.Reaches names) (hn : d.Fits names)
    {p : Path} {dir : List String} {last : String} (h : d.Leads p dir last) (text : String) :
    (d.write names text).Leads p dir last where
  root := h.root
  size := h.size
  way := by
    obtain ⟨init, hp, he⟩ := h.way
    exact ⟨init, hp, he.write hr hn text⟩

/-- After writing what a path leads to, the path leads there again if it did so by its names. -/
theorem Leads.find_write {d : Disk} {p : Path} {dir : List String} {last : String}
    (hp : p.Proper) (h : d.Leads p dir last) (he : IsEntry last)
    (hr : d.Reaches (dir ++ [last])) (hn : d.Fits (dir ++ [last])) (hs : d.file? p.steps = none)
    (text : String) : (d.write (dir ++ [last]) text).find p = .file (dir ++ [last]) text := by
  refine (h.write hr hn text).find hp he (by rw [file?_write, if_pos rfl]) ?_
  by_cases hd : p.steps = dir ++ [last]
  · exact .inr hd
  · exact .inl (by rw [file?_write, if_neg hd, hs])

theorem find_write_steps (d : Disk) (p : Path) (text : String) :
    (d.write p.steps text).find p = .file p.steps text := by
  rw [find, file?_write, if_pos rfl]

/-- A file that a path leads to is found with its new text. -/
theorem find_write_old {d : Disk} {p : Path} (hp : p.Proper) {names : List String} {old : String}
    (h : d.find p = .file names old) (text : String) :
    (d.write names text).find p = .file names text := by
  obtain ⟨hf, rfl | ⟨hs, dir, last, rfl, he, hl⟩⟩ := find_file hp h
  · exact find_write_steps d p text
  · refine hl.find_write hp he (reaches_of_file? hf) ?_ hs text
    intro hnone
    rw [hf] at hnone
    cases hnone

theorem locate_of_find {d : Disk} {p : Path}
    (h : ∀ names text, d.find p ≠ .file names text) :
    d.file? p.steps = none ∧ d.find p = d.locate p.text := by
  rw [find] at h ⊢
  cases hf : d.file? p.steps with
  | some text => exact absurd (by rw [hf]) (h p.steps text)
  | none => exact ⟨rfl, rfl⟩

theorem isEntry_of_follow {d : Disk} {dir : List String} {name : String} (hn : 2 < name.length)
    (h : d.follow (some dir) [name] ≠ .nameTooLong) : IsEntry name := by
  have hdot : name ≠ "." := by
    rintro rfl
    exact absurd hn (by decide)
  have hdots : name ≠ ".." := by
    rintro rfl
    exact absurd hn (by decide)
  refine ⟨hdot, hdots, Nat.not_lt.mp fun hlen => h ?_⟩
  simp [follow, hdot, hdots, hlen]

theorem fits_of_follow {d : Disk} {dir : List String} {name : String} (he : IsEntry name)
    (h : d.follow (some dir) [name] ≠ .directory) : d.Fits (dir ++ [name]) := by
  intro hf
  by_contra hd
  refine h ?_
  rw [follow_entry he, hf]
  simp [hd, follow]

theorem size_of_locate {d : Disk} {text : String} (ht : text ≠ "")
    (h : d.locate text ≠ .nameTooLong) : text.utf8ByteSize ≤ pathLimit := by
  by_contra hsize
  refine h ?_
  rw [locate, if_neg (by simpa using ht), if_pos (Nat.not_le.mp hsize)]

theorem Leads.withEnding {d : Disk} {p : Path} {dir : List String} {last ending : String}
    (h : d.Leads p dir last) (hq : (p.withEnding ending).Proper)
    (hl : d.locate (p.withEnding ending).text ≠ .nameTooLong) :
    d.Leads (p.withEnding ending) dir (last ++ ending) := by
  obtain ⟨init, hn, he⟩ := h.way
  have hqn : (p.withEnding ending).names = init ++ [last ++ ending] := by
    simp [Path.withEnding, Path.lengthen, hn]
  have hne : (p.withEnding ending).names ≠ [] := by simp [hqn]
  exact ⟨h.root, size_of_locate (Path.text_ne_empty hq h.root hne) hl, init, hqn, he⟩

/-- A new file beside another one is found by the longer path, if this path leads neither to a file
nor to a directory and is not too long. -/
theorem find_write_new {d : Disk} {p : Path} (hp : p.Proper) (hne : p.names ≠ [])
    {ending : String} (hq : (p.withEnding ending).Proper) (he : 2 < ending.length)
    {names : List String} {old : String} (h : d.find p = .file names old)
    (hf : ∀ there found, d.find (p.withEnding ending) ≠ .file there found)
    (hd : d.find (p.withEnding ending) ≠ .directory)
    (hl : d.find (p.withEnding ending) ≠ .nameTooLong) (text : String) :
    (d.write (Path.lengthen names ending) text).find (p.withEnding ending) =
      .file (Path.lengthen names ending) text := by
  obtain ⟨hold, rfl | ⟨-, dir, last, rfl, -, hp⟩⟩ := find_file hp h
  · rw [← Path.steps_withEnding hne]
    exact find_write_steps d _ text
  · obtain ⟨hsteps, hloc⟩ := locate_of_find hf
    rw [hloc] at hd hl
    have hleads := hp.withEnding hq hl
    rw [hleads.locate hq] at hd hl
    have hlen : 2 < (last ++ ending).length := by
      rw [String.length_append]
      omega
    have hentry := isEntry_of_follow hlen hl
    have htarget : Path.lengthen (dir ++ [last]) ending = dir ++ [last ++ ending] := by
      simp [Path.lengthen]
    have hreach := reaches_lengthen (reaches_of_file? hold) (by simp) ending
    rw [htarget] at hreach ⊢
    exact hleads.find_write hq hentry hreach (fits_of_follow hentry hd) hsteps text

/-- The file that a path leads to has the last name of the path. -/
theorem getLast?_of_find {d : Disk} {p : Path} (hp : p.Proper) (hne : p.names ≠ [])
    {names : List String} {text : String} (h : d.find p = .file names text) :
    names.getLast? = p.names.getLast? := by
  obtain ⟨-, rfl | ⟨-, dir, last, rfl, -, hl⟩⟩ := find_file hp h
  · obtain ⟨name, rest, hp⟩ := List.exists_cons_of_ne_nil hne
    rw [Path.steps]
    split
    · rfl
    · simp [hp]
  · obtain ⟨init, hn, -⟩ := hl.way
    simp [hn]

end Disk
end Script
