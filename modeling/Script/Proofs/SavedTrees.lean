import Script.Command
import Script.Proofs.Files
import Script.Proofs.JsonTrees
import Script.Proofs.RoundTrip

/-!
# Running saved trees

A program whose tree has been saved runs from there as it runs from its text: the same ending, the
same output and complaints and the same debug file, whatever the switches. The tree comes back from
its text, its file is found again, and saving it leaves the rest of the disk as it was.
-/
namespace Script

namespace Options

/-- The words that only switch something on: `--echo`, and `-v` with any number of repetitions. -/
def IsFlag (text : String) : Prop :=
  text = "--echo" ∨ ∃ n, text.toList = '-' :: 'v' :: List.replicate n 'v'

def IsPlain (text : String) : Prop := text.toList.head? ≠ some '-'

theorem ne_divider_of_plain {text : String} (h : IsPlain text) : text ≠ "--" := by
  rintro rfl
  exact h (by decide)

theorem word_plain {text : String} (h : IsPlain text) : word text = .ok (.plain text) := by
  rw [word]
  split
  · rename_i hs
    exact absurd (by rw [hs]; rfl) h
  · rename_i hs
    exact absurd (by rw [hs]; rfl) h
  · rfl

theorem shortSwitches_replicate (n : Nat) :
    (List.replicate n 'v').mapM shortSwitch? = some (List.replicate n .verbose) := by
  induction n with
  | zero => rfl
  | succ n ih => simp [List.replicate_succ, ih, shortSwitch?]

theorem shortWord_replicate (n : Nat) :
    shortWord .verbose (List.replicate n 'v') = .switches (List.replicate (n + 1) .verbose) := by
  cases n with
  | zero => rfl
  | succ n =>
    have h := shortSwitches_replicate (n + 1)
    simp only [shortWord, List.replicate_succ] at h ⊢
    simp [h]

def Quiet (switches : List Switch) : Prop := ∀ s ∈ switches, s = .verbose ∨ s = .echo

theorem word_flag {text : String} (h : IsFlag text) :
    text ≠ "--" ∧ ∃ switches, word text = .ok (.switches switches) ∧ Quiet switches := by
  rcases h with rfl | ⟨n, hn⟩
  · exact ⟨by decide, [.echo], by decide +kernel, by simp [Quiet]⟩
  · refine ⟨?_, List.replicate (n + 1) .verbose, ?_, ?_⟩
    · rintro rfl
      simp at hn
    · rw [word, hn]
      simp [shortSwitch?, shortWord_replicate]
    · intro s hs
      exact .inl (List.eq_of_mem_replicate hs)

/-- Options that have no file and no program yet. -/
def flagged (verbosity : Nat) (echo : Bool) : Options := { verbosity, echo }

theorem turnOn_quiet {switches : List Switch} (h : Quiet switches) (verbosity : Nat) (echo : Bool) :
    ∃ v e, turnOn (flagged verbosity echo) switches = .ok (flagged v e, none) := by
  induction switches generalizing verbosity echo with
  | nil => exact ⟨verbosity, echo, rfl⟩
  | cons s switches ih =>
    have ht : Quiet switches := fun s hs => h s (List.mem_cons_of_mem _ hs)
    rcases h s List.mem_cons_self with rfl | rfl
    · exact ih ht (verbosity + 1) echo
    · exact ih ht verbosity true

/-- Flags in front of other words only change the verbosity and the echo. -/
theorem parse_flags {flags : List String} (h : ∀ x ∈ flags, IsFlag x) (verbosity : Nat)
    (echo : Bool) : ∃ v e, ∀ rest others, words rest = .ok others →
      ∃ first, words (flags ++ rest) = .ok (first ++ others) ∧
        collect (flagged verbosity echo) true true (first ++ others) =
          collect (flagged v e) true true others := by
  induction flags generalizing verbosity echo with
  | nil => exact ⟨verbosity, echo, fun rest others ho => ⟨[], ho, rfl⟩⟩
  | cons flag flags ih =>
    obtain ⟨hne, switches, hw, hq⟩ := word_flag (h flag List.mem_cons_self)
    obtain ⟨v, e, hv⟩ := turnOn_quiet hq verbosity echo
    obtain ⟨v', e', hi⟩ := ih (fun x hx => h x (List.mem_cons_of_mem _ hx)) v e
    refine ⟨v', e', fun rest others ho => ?_⟩
    obtain ⟨first, hwords, hcollect⟩ := hi rest others ho
    refine ⟨.switches switches :: first, ?_, ?_⟩
    · rw [List.cons_append, words, if_neg hne, hw, hwords]
      rfl
    · rw [List.cons_append, collect, hv]
      exact hcollect

theorem words_plain {text : String} (h : IsPlain text) : words [text] = .ok [.plain text] := by
  rw [words, if_neg (ne_divider_of_plain h), word_plain h]
  rfl

theorem words_ast {text : String} (h : IsPlain text) :
    words ["--ast", text] = .ok [.switches [.ast], .plain text] := by
  have hw : word "--ast" = .ok (.switches [.ast]) := by decide +kernel
  rw [words, if_neg (by decide), hw, words_plain h]
  rfl

/-- The same flags mean the same in front of a program and in front of a saved tree. -/
theorem parse_flagged {flags : List String} (hf : ∀ x ∈ flags, IsFlag x) :
    ∃ v e, ∀ text, IsPlain text →
      parse (flags ++ [text]) = .ok { flagged v e with program := some text } ∧
      parse (flags ++ ["--ast", text]) = .ok { flagged v e with ast := some text } := by
  obtain ⟨v, e, h⟩ := parse_flags hf 0 false
  refine ⟨v, e, fun text ht => ⟨?_, ?_⟩⟩
  · obtain ⟨first, hw, hc⟩ := h [text] _ (words_plain ht)
    rw [parse, hw]
    exact hc
  · obtain ⟨first, hw, hc⟩ := h ["--ast", text] _ (words_ast ht)
    rw [parse, hw]
    refine hc.trans ?_
    simp [collect, turnOn, give, ne_divider_of_plain ht, fileSwitches, flagged]

theorem parse_emitAst {text : String} (ht : IsPlain text) :
    parse ["--emit-ast", text] = .ok { emitAst := some text } := by
  have hw : word "--emit-ast" = .ok (.switches [.emitAst]) := by decide +kernel
  have hs : words ["--emit-ast", text] = .ok [.switches [.emitAst], .plain text] := by
    rw [words, if_neg (by decide), hw, words_plain ht]
    rfl
  rw [parse, hs]
  simp [bind, Except.bind, collect, turnOn, give, ne_divider_of_plain ht, fileSwitches]

theorem present_some {text : String} (h : text ≠ "") : present (some text) = some text := by
  simp [present, Option.filter, h]

end Options

namespace Command

open Options (IsFlag IsPlain)

/-- The tree of a program comes back from the text that is saved for it. -/
theorem ofJson_parse_render {source : String} {node : Node}
    (h : Node.ofSource source = .ok node) :
    ∃ j, Json.parse node.toJson.render = .ok j ∧ Node.ofJson j = .ok node :=
  ⟨node.toJson, Json.parse_render (Node.wellFormed_of_ofSource h).plain, Node.ofJson_toJson node⟩

theorem runTree_render {source : String} {node : Node} (h : Node.ofSource source = .ok node)
    (w : World) (o : Options) : runTree w o (decoded node.toJson.render) = execute w o node := by
  have hp := (Node.wellFormed_of_ofSource h).plain
  rw [decoded, Json.unifyLineEnds_render hp, runTree, Json.parse_render hp]
  simp only [Node.ofJson_toJson]

/-- Reports that cannot be told apart but by other files than the debug file. -/
structure Report.Same (r s : Report) : Prop where
  ending : r.ending = s.ending
  output : r.output = s.output
  complaint : r.complaint = s.complaint
  debug : r.disk.file? debugFile = s.disk.file? debugFile

/-- A disk on which debug messages have the same place and the same file as on another one. -/
structure SameDebug (d e : Disk) : Prop where
  place : hasDebugFile d = hasDebugFile e
  file : d.file? debugFile = e.file? debugFile

theorem report_same {w : World} {d : Disk} (hd : SameDebug d w.disk) (m : Machine)
    (ending : Ending) (complaint : String) :
    (report { w with disk := d } m ending complaint).Same (report w m ending complaint) where
  ending := rfl
  output := by simp only [report, hd.place]
  complaint := rfl
  debug := by
    simp only [report, hd.place]
    split
    · rw [Disk.file?_write, Disk.file?_write, if_pos rfl, if_pos rfl]
    · exact hd.file

theorem execute_same {w : World} {d : Disk} (hd : SameDebug d w.disk) {o p : Options}
    (he : o.echo = p.echo) (hv : o.verbosity = p.verbosity) (node : Node) :
    (execute { w with disk := d } o node).Same (execute w p node) := by
  have hm : machine { w with disk := d } p.verbosity = machine w p.verbosity := rfl
  rw [execute, execute, he, hv, hm]
  cases Session.tree p.echo node (machine w p.verbosity) with
  | mk result m =>
    cases result with
    | ok values => exact report_same hd m _ _
    | error fault =>
      simp only
      cases complaint? fault with
      | some message => exact report_same hd m _ _
      | none => exact report_same hd m _ _

/-- Saving a tree beside a file leaves the debug messages alone. -/
theorem sameDebug_write {d : Disk} {names : List String} (hr : d.Reaches names)
    (hn : names ≠ debugFile) (text : String) : SameDebug (d.write names text) d where
  place := by rw [hasDebugFile, hasDebugFile, Disk.isDirectory_write hr]
  file := by rw [Disk.file?_write, if_neg (Ne.symm hn)]

theorem ne_empty_of_endsInName {f : String} (h : Path.EndsInName f) : f ≠ "" := by
  rintro rfl
  exact h.1 (by decide)

theorem withFile_file {w : World} {f : String} (hp : isPath f = true) {names : List String}
    {text : String} (h : w.disk.find (.ofText f) = .file names text)
    (body : List String → String → Report) : withFile w f body = body names (decoded text) := by
  simp only [withFile, hp, h]
  rfl

theorem run_program {w : World} {args : List String} {v : Nat} {e : Bool} {f : String}
    (ha : Options.parse args = .ok { Options.flagged v e with program := some f }) (hf : f ≠ "") :
    run w args = withFile w f fun _ source =>
      runProgram w { Options.flagged v e with program := some f } source := by
  simp only [run, ha, perform, Options.present_some hf]
  rfl

theorem run_ast {w : World} {args : List String} {v : Nat} {e : Bool} {f : String}
    (ha : Options.parse args = .ok { Options.flagged v e with ast := some f }) (hf : f ≠ "") :
    run w args = withFile w f fun _ text =>
      runTree w { Options.flagged v e with ast := some f } text := by
  simp only [run, ha, perform, Options.present_some hf]
  rfl

theorem run_emitAst {w : World} {f : String} (hp : IsPlain f) (hf : f ≠ "") :
    run w ["--emit-ast", f] =
      withFile w f fun names source => saveTree w (.ofText f) names source := by
  simp only [run, Options.parse_emitAst hp, perform, Options.present_some hf]
  rfl

theorem append_treeEnding_ne (name : String) : name ++ treeEnding ≠ "debug.txt" := by
  intro h
  have hlast : (name ++ treeEnding).toList.getLast? = some 'n' := by
    simp [treeEnding]
  rw [h] at hlast
  exact absurd hlast (by decide)

theorem ne_debugFile {names : List String} {name : String}
    (h : names.getLast? = some (name ++ treeEnding)) : names ≠ debugFile := by
  rintro rfl
  exact append_treeEnding_ne name (Option.some.inj h).symm

/-- A file that a tree can be saved in: the longer path leads to it once the tree is there, the
directories on its way exist, and it is not the debug file. -/
structure Saves (d : Disk) (f : String) (names : List String) (text : String) : Prop where
  find : (d.write names text).find (.ofText (f ++ treeEnding)) = .file names text
  reaches : d.Reaches names
  other : names ≠ debugFile

theorem ofText_treeEnding {f : String} (hname : Path.EndsInName f) :
    Path.ofText (f ++ treeEnding) = (Path.ofText f).withEnding treeEnding :=
  Path.ofText_append hname (by decide)

section Saving

variable {w : World} {f text : String} {names : List String} {node : Node}

theorem saves_old (hname : Path.EndsInName f) {there : List String} {old : String}
    (h : w.disk.find (.ofText (f ++ treeEnding)) = .file there old) (new : String) :
    Saves w.disk f there new := by
  have hq := Path.ofText_proper (f ++ treeEnding)
  have happ := ofText_treeEnding hname
  have hne : (Path.ofText (f ++ treeEnding)).names ≠ [] := by
    simp [happ, Path.withEnding, Path.lengthen]
  have hlast := Disk.getLast?_of_find hq hne h
  refine ⟨Disk.find_write_old hq h new, Disk.reaches_of_file? (Disk.find_file hq h).1, ?_⟩
  rw [happ] at hlast
  exact ne_debugFile (by simpa [Path.withEnding, Path.lengthen] using hlast)

theorem saves_new (hname : Path.EndsInName f) (hfile : w.disk.find (.ofText f) = .file names text)
    (hf : ∀ there old, w.disk.find (.ofText (f ++ treeEnding)) ≠ .file there old)
    (hd : w.disk.find (.ofText (f ++ treeEnding)) ≠ .directory)
    (hl : w.disk.find (.ofText (f ++ treeEnding)) ≠ .nameTooLong) (new : String) :
    Saves w.disk f (Path.lengthen names treeEnding) new := by
  have hp := Path.ofText_proper f
  have hq := Path.ofText_proper (f ++ treeEnding)
  have hne := Path.names_ofText_ne_nil hname
  have hnames : names ≠ [] := by
    rintro rfl
    exact hne (List.getLast?_eq_none_iff.mp (Disk.getLast?_of_find hp hne hfile).symm)
  have hreach := Disk.reaches_of_file? (Disk.find_file hp hfile).1
  have happ := ofText_treeEnding hname
  refine ⟨?_, Disk.reaches_lengthen hreach hnames _, ne_debugFile (by simp [Path.lengthen]; rfl)⟩
  rw [happ] at hq hf hd hl ⊢
  exact Disk.find_write_new hp hne hq (by decide) hfile hf hd hl new

/-- What saving the tree of a program comes to. Where the longer path is blocked nothing is saved;
otherwise one file is written. -/
theorem run_emitAst_cases (hplain : IsPlain f) (hpath : isPath f = true)
    (hname : Path.EndsInName f) (hfile : w.disk.find (.ofText f) = .file names text)
    (hnode : Node.ofSource (decoded text) = .ok node) :
    ((w.disk.find (.ofText (f ++ treeEnding)) = .directory ∨
        w.disk.find (.ofText (f ++ treeEnding)) = .nameTooLong) ∧
      ∃ cause, (run w ["--emit-ast", f]).ending = .escape cause) ∨
    ((w.disk.find (.ofText (f ++ treeEnding)) ≠ .directory ∧
        w.disk.find (.ofText (f ++ treeEnding)) ≠ .nameTooLong) ∧
      ∃ target, Saves w.disk f target node.toJson.render ∧
        (run w ["--emit-ast", f]).ending = .exit 0 ∧
        (run w ["--emit-ast", f]).disk = w.disk.write target node.toJson.render) := by
  have hrun : run w ["--emit-ast", f] = saveTree w (.ofText f) names (decoded text) := by
    rw [run_emitAst hplain (ne_empty_of_endsInName hname), withFile_file hpath hfile]
  simp only [hrun, saveTree, hnode, ← ofText_treeEnding hname]
  cases hq : w.disk.find (.ofText (f ++ treeEnding)) with
  | directory => exact .inl ⟨.inl rfl, _, rfl⟩
  | nameTooLong => exact .inl ⟨.inr rfl, _, rfl⟩
  | file there old => exact .inr ⟨by simp, there, saves_old hname hq _, rfl, rfl⟩
  | missing =>
    have hsaves := saves_new hname hfile (by simp [hq]) (by simp [hq]) (by simp [hq])
    exact .inr ⟨by simp, _, hsaves _, rfl, rfl⟩
  | notDirectory =>
    have hsaves := saves_new hname hfile (by simp [hq]) (by simp [hq]) (by simp [hq])
    exact .inr ⟨by simp, _, hsaves _, rfl, rfl⟩

end Saving

theorem isPath_append {f ending : String} (hf : isPath f = true) (he : isPath ending = true) :
    isPath (f ++ ending) = true := by
  simp only [isPath, String.toList_append, List.all_append, Bool.and_eq_true] at hf he ⊢
  exact ⟨hf, he⟩

theorem isPlain_append {f : String} (hf : IsPlain f) (hne : f ≠ "") (ending : String) :
    IsPlain (f ++ ending) := by
  obtain ⟨c, cs, hc⟩ : ∃ c cs, f.toList = c :: cs :=
    List.exists_cons_of_ne_nil (by simpa using hne)
  simpa [IsPlain, hc] using hf

section Running

variable {w : World} {f text : String} {names : List String} {node : Node} {flags : List String}

/-- Running a program, and running the tree that has been saved for it, on two worlds that differ by
the file of the tree. -/
theorem run_same (hplain : IsPlain f) (hpath : isPath f = true) (hname : Path.EndsInName f)
    (hfile : w.disk.find (.ofText f) = .file names text)
    (hnode : Node.ofSource (decoded text) = .ok node) {target : List String}
    (hs : Saves w.disk f target node.toJson.render) (hflags : ∀ x ∈ flags, IsFlag x) :
    (run { w with disk := w.disk.write target node.toJson.render }
      (flags ++ ["--ast", f ++ treeEnding])).Same (run w (flags ++ [f])) := by
  have hne := ne_empty_of_endsInName hname
  have hne' : f ++ treeEnding ≠ "" := fun h => hne (String.append_eq_empty_iff.mp h).1
  have hplain' := isPlain_append hplain hne treeEnding
  have hpath' : isPath (f ++ treeEnding) = true := isPath_append hpath (by decide)
  obtain ⟨v, e, hparse⟩ := Options.parse_flagged hflags
  have hsame := execute_same (sameDebug_write hs.reaches hs.other node.toJson.render)
    (o := { Options.flagged v e with ast := some (f ++ treeEnding) })
    (p := { Options.flagged v e with program := some f }) rfl rfl node
  rw [run_program (hparse f hplain).1 hne, withFile_file hpath hfile, runProgram, hnode,
    run_ast (hparse _ hplain').2 hne', withFile_file hpath' hs.find, runTree_render hnode]
  exact hsame

end Running

/-- A saved tree runs as its program does. The text that is saved for a program is read back as its
tree. If the path of a program is no switch, ends in a name and leads to a text that reads as a
program, then its tree is saved unless the longer path leads to a directory or is too long; and
running the saved tree, with any flags, cannot be told from running the program with them. -/
theorem runs_alike_from_saved_tree :
    (∀ source node, Node.ofSource source = .ok node →
      ∃ j, Json.parse node.toJson.render = .ok j ∧ Node.ofJson j = .ok node) ∧
    ∀ (w : World) (f : String) (names : List String) (text : String) (node : Node)
      (flags : List String),
      IsPlain f → isPath f = true → Path.EndsInName f →
      w.disk.find (.ofText f) = .file names text → Node.ofSource (decoded text) = .ok node →
      (∀ x ∈ flags, IsFlag x) →
      ((run w ["--emit-ast", f]).ending = .exit 0 ↔
        w.disk.find (.ofText (f ++ treeEnding)) ≠ .directory ∧
        w.disk.find (.ofText (f ++ treeEnding)) ≠ .nameTooLong) ∧
      ((run w ["--emit-ast", f]).ending = .exit 0 →
        (run { w with disk := (run w ["--emit-ast", f]).disk }
          (flags ++ ["--ast", f ++ treeEnding])).Same (run w (flags ++ [f]))) := by
  refine ⟨fun source node h => ofJson_parse_render h, ?_⟩
  intro w f names text node flags hplain hpath hname hfile hnode hflags
  obtain ⟨hblocked, cause, hending⟩ | ⟨hfree, target, hsaves, hending, hdisk⟩ :=
    run_emitAst_cases hplain hpath hname hfile hnode
  · rw [hending]
    constructor
    · constructor
      · intro h
        cases h
      · intro h
        exact absurd hblocked (not_or.mpr h)
    · intro h
      cases h
  · refine ⟨⟨fun _ => hfree, fun _ => hending⟩, fun _ => ?_⟩
    rw [hdisk]
    exact run_same hplain hpath hname hfile hnode hsaves hflags

/-- A program of one string with quotes, a backslash and a tab in it. -/
def quoting : Node := .program (.list [.stringLiteral (.text "say \"\\n\"\ttwice")])

theorem quoting_wellFormed : quoting.WellFormed := by
  refine .program fun s hs => ?_
  rw [List.mem_singleton.mp hs]
  exact .expression (.string ⟨'\'', by decide, by decide⟩)

def quotingWorld : World where
  disk := ⟨[(["p.npl"], Printer.text quoting)]⟩
  input := ""
  ambient := .seeded 0 0

theorem quoting_runs_alike :
    (run quotingWorld ["--emit-ast", "p.npl"]).ending = .exit 0 ∧
    (run { quotingWorld with disk := (run quotingWorld ["--emit-ast", "p.npl"]).disk }
      (["-vv", "--echo"] ++ ["--ast", "p.npl" ++ treeEnding])).Same
        (run quotingWorld (["-vv", "--echo"] ++ ["p.npl"])) := by
  have hdecoded : decoded (Printer.text quoting) = Printer.text quoting := by decide +kernel
  have hnode : Node.ofSource (decoded (Printer.text quoting)) = .ok quoting := by
    rw [hdecoded]
    exact Node.ofSource_text quoting_wellFormed
  have hflags : ∀ x ∈ ["-vv", "--echo"], IsFlag x := by
    intro x hx
    rcases List.mem_pair.mp hx with rfl | rfl
    · exact .inr ⟨1, by decide⟩
    · exact .inl rfl
  obtain ⟨hsaved, hsame⟩ := runs_alike_from_saved_tree.2 quotingWorld "p.npl" ["p.npl"]
    (Printer.text quoting) quoting ["-vv", "--echo"] (by unfold IsPlain; decide) (by decide)
    (by decide) (by decide +kernel) hnode hflags
  have hending := hsaved.mpr (by decide +kernel)
  exact ⟨hending, hsame hending⟩

/-- A program whose longer path is that of a directory. -/
def blockedWorld : World where
  disk := ⟨[(["p.npl"], "1;"), (["p.npl.ast.json", "x"], "")]⟩
  input := ""
  ambient := .seeded 0 0

/-- A program runs whose tree cannot be saved, so that there is no saved tree to run. -/
theorem blocked_not_saved :
    IsPlain "p.npl" ∧ blockedWorld.disk.find (.ofText "p.npl") = .file ["p.npl"] "1;" ∧
    (run blockedWorld ["p.npl"]).ending = .exit 0 ∧
    (run blockedWorld ["--emit-ast", "p.npl"]).ending = .escape .directory ∧
    (run { blockedWorld with disk := (run blockedWorld ["--emit-ast", "p.npl"]).disk }
      ["--ast", "p.npl" ++ treeEnding]).ending = .escape .directory := by
  refine ⟨?_, ?_, ?_, ?_, ?_⟩
  · unfold IsPlain
    decide
  all_goals decide +kernel

end Command
end Script
