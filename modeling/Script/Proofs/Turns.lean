import Script.Proofs.Determinacy
import Script.Proofs.Progress
import Script.Proofs.Recasting
import Script.Proofs.Segmentation
import Script.Shell

/-!
# The turns of a shell

A shell takes its turns line by line on one machine. What a turn does is told by the word that the
line begins with: only two words end the shell, the other commands just write lines, and every other
line is a program that runs as a step of a session would run it. The shell has words for almost all
faults. It has none for operands of a remainder or of a repetition that are refused as limits of
numbers and strings: such a fault is not reported, and comes out of the shell itself.
-/
namespace Script

theorem Token.end_of_tokenize {text : String} {tokens : List Token}
    (h : Token.tokenize text = .ok tokens) : ∃ t ∈ tokens, t.kind = .eof := by
  obtain ⟨ps, rest, hcut⟩ := Token.exists_cut text.toList
  rcases hcut.ends with rfl | ⟨message, hstuck⟩
  · rw [Token.tokenize_of_cut_nil hcut] at h
    cases h
    exact ⟨_, List.mem_append_right _ (List.mem_singleton_self _), rfl⟩
  · obtain ⟨fault, herror, -⟩ := Token.tokenize_of_cut_stuck hcut hstuck
    cases h.symm.trans herror

/-- A token list with an end token is a program, or a token does not fit. -/
theorem Parse.ofTokens_cases {tokens : List Token} (hend : ∃ t ∈ tokens, t.kind = .eof) :
    (∃ tree, Node.ofTokens tokens = .ok tree) ∨
      ∃ cause line place, Node.ofTokens tokens = .error (.misfit cause line place) := by
  obtain ⟨c, rfl⟩ : ∃ c : Parse.Cursor, c.ahead = tokens := by
    obtain ⟨t, ht, -⟩ := hend
    obtain ⟨u, us, rfl⟩ := List.exists_cons_of_ne_nil (List.ne_nil_of_mem ht)
    exact ⟨⟨u, us⟩, rfl⟩
  have hlen : c.view.length ≤ c.ahead.length := Parse.viewOf_length_le c.ahead
  rw [Parse.ofTokens_ahead]
  cases Parse.advances_program (c.ahead.length + 2) 0 (fun _ => False) c hend hlen with
  | ok tree _ _ run _ =>
    rw [run]
    exact .inl ⟨tree, rfl⟩
  | misfit cause line _ _ run _ =>
    rw [run]
    exact .inr ⟨cause, line, _, rfl⟩

/-- Whatever keeps a text from being a program has a diagnosis. -/
theorem Node.diagnosis_of_ofSource {text : String} {fault : SourceFault}
    (h : Node.ofSource text = .error fault) : ∃ d, fault.diagnosis? = some d := by
  unfold Node.ofSource at h
  split at h
  · cases h
    exact ⟨_, rfl⟩
  · rename_i tokens htokens
    rcases Parse.ofTokens_cases (Token.end_of_tokenize htokens) with ⟨tree, hok⟩ |
      ⟨cause, line, place, hmisfit⟩
    · rw [hok] at h
      cases h
    · rw [hmisfit] at h
      cases h
      exact ⟨_, rfl⟩

namespace Machine

def writing (m : Machine) (lines : List String) : Machine :=
  m.withLog (m.events ++ (lines.map fun line => Event.wrote (.text line)).toArray)

theorem writing_nil (m : Machine) : m.writing [] = m := by
  rw [writing, List.map_nil, Array.append_empty, withLog_events]

theorem writing_cons (m : Machine) (line : String) (lines : List String) :
    m.writing (line :: lines) = (m.writing [line]).writing lines := by
  simp [writing]

end Machine

namespace Shell

/-- The word that a line begins with, blanks aside: it goes on as far as a word can. -/
def BeginsWith (word text : String) : Prop :=
  ∃ rest, Text.trim text.toList = word.toList ++ rest ∧ (∀ c ∈ word.toList, isWordPart c = true) ∧
    ∀ c ∈ rest.head?, isWordPart c = false

/-- A line that is run as a program. -/
structure IsSource (text : String) : Prop where
  something : Text.trim text.toList ≠ []
  no_question : (Text.trim text.toList).head? ≠ some '?'
  no_command : ∀ word ∈ ["exit", "EOF", "tokens", "help"], ¬ BeginsWith word text

def stripped (text : String) : String := String.ofList (Text.trim text.toList)

theorem beginsWith_iff {word text : String} :
    BeginsWith word text ↔
      String.ofList ((Text.trim text.toList).takeWhile isWordPart) = word := by
  constructor
  · rintro ⟨rest, htext, hword, hrest⟩
    have hstop : rest.takeWhile isWordPart = [] := by
      cases rest with
      | nil => rfl
      | cons c rest => exact List.takeWhile_cons_of_neg (by simp [hrest c rfl])
    rw [htext, List.takeWhile_append_of_pos hword, hstop, List.append_nil, String.ofList_toList]
  · rintro rfl
    refine ⟨(Text.trim text.toList).dropWhile isWordPart, ?_, ?_, ?_⟩
    · rw [String.toList_ofList, List.takeWhile_append_dropWhile]
    · rw [String.toList_ofList]
      exact fun c hc => List.mem_takeWhile_imp hc
    · intro c hc
      have hnot := List.head?_dropWhile_not isWordPart (Text.trim text.toList)
      rw [Option.mem_def.mp hc] at hnot
      exact hnot

def Command.source? : Command → Option String
  | .run source => some source
  | _ => none

def Command.stops : Command → Bool
  | .exit | .endOfInput => true
  | _ => false

theorem Command.eq_run_of_source? {c : Command} {source : String} (h : c.source? = some source) :
    c = .run source := by
  cases c <;> simp_all [source?]

theorem isSource_iff {text : String} : IsSource text ↔ Text.trim text.toList ≠ [] ∧
    (Text.trim text.toList).head? ≠ some '?' ∧
    String.ofList ((Text.trim text.toList).takeWhile isWordPart) ∉
      ["exit", "EOF", "tokens", "help"] := by
  constructor
  · rintro ⟨hsome, hquestion, hword⟩
    exact ⟨hsome, hquestion, fun h => hword _ h (beginsWith_iff.mpr rfl)⟩
  · rintro ⟨hsome, hquestion, hword⟩
    exact ⟨hsome, hquestion, fun word h hbegins => hword (beginsWith_iff.mp hbegins ▸ h)⟩

theorem Command.ofTrimmed_cases (cs : List Char) {word : String}
    (hword : String.ofList (cs.takeWhile isWordPart) = word) :
    ((ofTrimmed cs).stops = true ↔ word = "exit" ∨ word = "EOF") ∧
      ∀ source, (ofTrimmed cs).source? = some source ↔
        word ∉ ["exit", "EOF", "tokens", "help"] ∧ source = String.ofList cs := by
  simp only [ofTrimmed, hword]
  split_ifs <;> simp_all [stops, source?, eq_comm]

/-- What a line is, in terms of how it begins. -/
theorem Command.ofLine_cases (text : String) :
    ((ofLine text).stops = true ↔ BeginsWith "exit" text ∨ BeginsWith "EOF" text) ∧
      ∀ source, (ofLine text).source? = some source ↔ IsSource text ∧ source = stripped text := by
  simp only [beginsWith_iff, isSource_iff, stripped, ofLine]
  split
  · rename_i htrim
    simp [htrim, stops, source?]
  · rename_i htrim
    simp [htrim, stops, source?, isWordPart]
  · rename_i hsome hquestion
    obtain ⟨hstops, hsource⟩ := ofTrimmed_cases (Text.trim text.toList) rfl
    refine ⟨hstops, fun source => (hsource source).trans ?_⟩
    have hne : Text.trim text.toList ≠ [] := hsome
    have hhead : (Text.trim text.toList).head? ≠ some '?' := by
      intro h
      obtain ⟨rest, hrest⟩ := List.head?_eq_some_iff.mp h
      exact hquestion rest hrest
    simp [hne, hhead]

theorem forM_writeText {α : Type} (line : α → String) (as : List α) (m : Machine) :
    as.forM (fun a => Run.writeText (line a)) m = .ok () (m.writing (as.map line)) := by
  induction as generalizing m with
  | nil => exact congrArg (EStateM.Result.ok ()) m.writing_nil.symm
  | cons a as ih =>
    rw [List.map_cons, m.writing_cons]
    exact ih _

theorem report_apply (message : String) (m : Machine) :
    report message m = .ok () (m.writing [Console.red message]) := rfl

theorem listTokens_apply (source : String) (m : Machine) :
    ∃ lines, listTokens source m = .ok () (m.writing lines) := by
  rw [listTokens]
  cases Token.tokenize source with
  | ok tokens => exact ⟨_, forM_writeText Token.listing tokens m⟩
  | error fault => exact ⟨_, report_apply fault.diagnosis.message m⟩

/-- A command that runs no program writes lines, and that is all it does. -/
theorem carryOut_apply {c : Command} (hc : c.source? = none) (m : Machine) :
    ∃ lines, carryOut c m = .ok c.stops (m.writing lines) := by
  cases c with
  | nothing => exact ⟨[], congrArg _ m.writing_nil.symm⟩
  | exit => exact ⟨[], congrArg _ m.writing_nil.symm⟩
  | endOfInput => exact ⟨[""], rfl⟩
  | tokens source =>
    obtain ⟨lines, h⟩ := listTokens_apply source m
    exact ⟨lines, Run.bind_of_ok h _⟩
  | help topic =>
    have h : (helpOn topic).forM Run.writeText m = .ok () (m.writing ((helpOn topic).map id)) :=
      forM_writeText id (helpOn topic) m
    exact ⟨(helpOn topic).map id, Run.bind_of_ok h _⟩
  | run source => cases hc

/-- What the shell says about a step that ends in a fault. -/
def said? : Session.StepFault → Option String
  | .run fault => complaint? fault
  | fault => fault.diagnosis?.map (·.message)

/-- The faults that the shell has no words for: a remainder or a repetition that is refused, a
repetition without room, and a loop that goes on for too long. -/
inductive Unspoken : Fault → Prop
  | remainder {dividend divisor} : Unspoken (@Fault.infiniteDividend dividend divisor)
  | repetition {count length} : Unspoken (@Fault.tooManyCopies count length)
  | noRoom {count length} : Unspoken (@Fault.outOfMemory count length)
  | unfinished : Unspoken .unfinished

/-- What stops a run is a fault that the shell has words for, or one of those it has none for. -/
theorem said_or_unspoken {e : Evaluation} {fault : Fault} {m : Machine}
    (h : e.Stopped Session.passLimit fault m) :
    (∃ message, complaint? fault = some message) ∨ complaint? fault = none ∧ Unspoken fault := by
  obtain ⟨goal, -, hhalts, -⟩ := h
  cases hhalts with
  | tooDeep => exact .inl ⟨_, rfl⟩
  | rule hrule =>
    cases hrule with
    | refused _ _ hr =>
      cases hr with
      | zeroDivision => exact .inl ⟨_, rfl⟩
      | infiniteDividend => exact .inr ⟨rfl, .remainder⟩
      | tooManyCopies => exact .inr ⟨rfl, .repetition⟩
    | exhausted => exact .inr ⟨rfl, .noRoom⟩
    | whileLoop => exact .inr ⟨rfl, .unfinished⟩
    | forLoop => exact .inr ⟨rfl, .unfinished⟩

theorem said_or_unspoken_of_statements {ss : List Node} {m n : Machine} {fault : Fault}
    (h : Progress.Stopped true ss m fault n) :
    (∃ message, complaint? fault = some message) ∨ complaint? fault = none ∧ Unspoken fault := by
  induction h with
  | here h => exact said_or_unspoken h
  | later _ _ ih => exact ih

/-- What comes of a line is what comes of the step with its text: the machine is left as the step
leaves it, and a fault of the step is reported behind what was written before, unless there are no
words for what has stopped the run. -/
inductive Follows {α : Type} (a : α) (text : String) (m : Machine) :
    Session.Outcome → EStateM.Result Fault Machine α → Prop
  | values (vs n) : Follows a text m (.ok vs, n) (.ok a n)
  | reported {fault message} (n) (said : said? fault = some message) :
      Follows a text m (.error fault, n) (.ok a (n.writing [Console.red message]))
  | escaped {fault n ss f} (hread : Node.ofSource text = .ok (.program (.list ss)))
      (stopped : Progress.Stopped true ss m fault { n with forest := f })
      (unsaid : complaint? fault = none) (unspoken : Unspoken fault) :
      Follows a text m (.error (.run fault), n) (.error fault n)

theorem runSource_follows {m : Machine} (hm : m.Proper) (text : String) :
    Follows () text m (Session.source true text m) (runSource text m) ∧
      (Session.source true text m).2.Proper := by
  cases hread : Node.ofSource text with
  | error fault =>
    obtain ⟨d, hd⟩ := Node.diagnosis_of_ofSource hread
    have hsaid : said? (.source fault) = some d.message := by
      simp only [said?, Session.StepFault.diagnosis?, hd, Option.map_some]
    simp only [Session.source, runSource, hread, hd]
    exact ⟨.reported m hsaid, hm⟩
  | ok tree =>
    obtain ⟨⟨ss, hss, hcomes⟩, hproper⟩ := Progress.expected_source true hread hm
    refine ⟨?_, hproper⟩
    simp only [Session.source, Session.tree, runSource, hread] at hcomes ⊢
    cases hprogram : Session.program true tree m with
    | ok vs n => exact .values vs n
    | error fault n =>
      rw [hprogram] at hcomes
      have hdocumented : Progress.Documented (Progress.Stopped true ss m) n fault := by
        rcases hcomes with ⟨_, hok, -⟩ | ⟨fault', hfault, hdocumented⟩
        · cases hok
        · cases hfault
          exact hdocumented
      have hreported {message : String} (h : complaint? fault = some message) :
          Follows () text m (.error (.run fault), n) (.ok () (n.writing [Console.red message])) :=
        .reported n h
      cases hdocumented with
      | binding fault => exact hreported rfl
      | missingArgument => exact hreported rfl
      | notFunction name => exact hreported rfl
      | stopped hstopped =>
        rcases said_or_unspoken_of_statements hstopped with ⟨message, hsaid⟩ | ⟨hunsaid, hunspoken⟩
        · simp only [hsaid]
          exact hreported hsaid
        · simp only [hunsaid]
          exact .escaped hss hstopped hunsaid hunspoken

theorem carryOut_follows {m : Machine} (hm : m.Proper) (text : String) :
    Follows false text m (Session.source true text m) (carryOut (.run text) m) ∧
      (machineOf (carryOut (.run text) m)).Proper := by
  obtain ⟨hfollows, hproper⟩ := runSource_follows hm text
  simp only [carryOut, Bind.bind, EStateM.bind]
  generalize Session.source true text m = o, runSource text m = r at hfollows hproper
  cases hfollows with
  | values vs n => exact ⟨.values vs n, hproper⟩
  | reported n said => exact ⟨.reported n said, hproper⟩
  | escaped hread stopped unsaid unspoken =>
    exact ⟨.escaped hread stopped unsaid unspoken, hproper⟩

theorem Follows.eq_of_ok {α : Type} {a b : α} {text : String} {m n : Machine}
    {o : Session.Outcome} (h : Follows a text m o (.ok b n)) : b = a := by
  cases h <;> rfl

/-- A fault of a step that the shell has no words for is what comes of the line. -/
theorem Follows.escapes {α : Type} {a : α} {text : String} {m : Machine} {o : Session.Outcome}
    {r : EStateM.Result Fault Machine α} {fault : Fault} (h : Follows a text m o r)
    (ho : o.1 = .error (.run fault)) (hunsaid : complaint? fault = none) :
    ∃ n, r = .error fault n := by
  cases h with
  | values vs n => cases ho
  | reported n said =>
    cases ho
    cases hunsaid.symm.trans said
  | escaped =>
    cases ho
    exact ⟨_, rfl⟩

/-- One line given to the shell, the machine that it finds and what comes of it. -/
structure Turn where
  text : String
  before : Machine
  result : EStateM.Result Fault Machine Bool

/-- The turns of a shell that is given lines one after another, whatever comes of each. -/
def turns : List String → Machine → List Turn
  | [], _ => []
  | text :: rest, m => ⟨text, m, line text m⟩ :: turns rest (machineOf (line text m))

/-- How a turn ends is told by the line: the shell stops at two words only, other commands just
write lines, and a program runs as the step of a session that echoes its values. -/
structure Turn.Faithful (t : Turn) : Prop where
  stops : (∃ n, t.result = .ok true n) ↔ BeginsWith "exit" t.text ∨ BeginsWith "EOF" t.text
  commands : ¬ IsSource t.text → ∃ stop lines, t.result = .ok stop (t.before.writing lines)
  programs : IsSource t.text →
    Follows false (stripped t.text) t.before (Session.source true (stripped t.text) t.before)
      t.result

/-- One turn is faithful and hands on a machine for the next. -/
theorem line_faithful {m : Machine} (hm : m.Proper) (text : String) :
    (Turn.mk text m (line text m)).Faithful ∧ (machineOf (line text m)).Proper := by
  obtain ⟨hstops, hsource⟩ := Command.ofLine_cases text
  cases hc : (Command.ofLine text).source? with
  | none =>
    have hno : ¬ IsSource text := by
      intro h
      cases hc.symm.trans ((hsource _).mpr ⟨h, rfl⟩)
    obtain ⟨lines, hresult⟩ := carryOut_apply hc m
    have hline : line text m = .ok (Command.ofLine text).stops (m.writing lines) := hresult
    rw [hline]
    refine ⟨⟨?_, fun _ => ⟨_, lines, rfl⟩, fun h => absurd h hno⟩, hm⟩
    rw [← hstops]
    constructor
    · rintro ⟨n, h⟩
      exact (EStateM.Result.ok.inj h).1
    · intro h
      exact ⟨_, by rw [h]⟩
  | some source =>
    obtain ⟨htext, rfl⟩ := (hsource source).mp hc
    have hcommand := Command.eq_run_of_source? hc
    rw [hcommand] at hstops
    obtain ⟨hfollows, hproper⟩ := carryOut_follows hm (stripped text)
    rw [← hcommand] at hfollows hproper
    refine ⟨⟨?_, fun h => absurd htext h, fun _ => hfollows⟩, hproper⟩
    rw [← hstops]
    constructor
    · rintro ⟨n, h⟩
      have hresult : carryOut (Command.ofLine text) m = .ok true n := h
      rw [hresult] at hfollows
      cases hfollows.eq_of_ok
    · intro h
      cases h

/-- The shell does with every line what the line says, whatever lines came before. A program behaves
as a step of a session, and a fault is reported and does not end the shell, apart from the faults
that the shell has no words for. -/
theorem turns_are_faithful (ambient : Ambient) (debugLevel : Nat) (inputs lines : List String) :
    ∀ t ∈ turns lines (Machine.fresh ambient debugLevel inputs), t.Faithful := by
  have hturns {m : Machine} (hm : m.Proper) : ∀ t ∈ turns lines m, t.Faithful := by
    induction lines generalizing m with
    | nil =>
      intro t ht
      cases ht
    | cons text lines ih =>
      obtain ⟨hfaithful, hnext⟩ := line_faithful hm text
      exact List.forall_mem_cons.mpr ⟨hfaithful, ih hnext⟩
  exact hturns (Progress.proper_fresh ambient debugLevel inputs)

/-- A line that takes the remainder of an infinite number. -/
def overflowingLine : String := "number('Infinity') % 7;"

def overflowing : Node :=
  .program (.list [.binaryOp (.text "%")
    (.call (.text "number") (.list [.stringLiteral (.text "Infinity")]))
    (.numberLiteral (.text "7"))])

theorem overflowing_read : Node.ofSource overflowingLine = .ok overflowing := by
  have hname : Node.ProperName "number" := by decide +kernel
  have hinfinity : Token.IsQuotable "Infinity".toList := ⟨'"', by decide, by decide⟩
  have hseven : Token.IsNumeral "7".toList := .whole (by decide) (List.all_eq_true.mp (by decide))
  have hp : overflowing.WellFormed := by
    refine .program fun s hs => ?_
    rw [List.mem_singleton.mp hs]
    refine .expression (.binary (by decide) (.call hname fun e he => ?_) (.number hseven))
    rw [List.mem_singleton.mp he]
    exact .string hinfinity
  exact Node.ofSource_of_tokens hp (by decide +kernel)

/-- A fault of a line that is run as a program is not reported, but comes out of the shell. -/
theorem overflowing_escapes : IsSource overflowingLine ∧
    ∃ n, line overflowingLine (Machine.fresh (.seeded 0 0) 0 []) =
      .error (@Fault.infiniteDividend (.infinite false) (.ofNat 7)) n := by
  have hrun : (Command.ofLine overflowingLine).source? = some overflowingLine := by decide +kernel
  have hfault : Progress.fault? (Session.tree true overflowing (Machine.fresh (.seeded 0 0) 0 [])) =
      some (.run (@Fault.infiniteDividend (.infinite false) (.ofNat 7))) := by decide +kernel
  have hstep : (Session.source true overflowingLine (Machine.fresh (.seeded 0 0) 0 [])).1 =
      .error (.run (@Fault.infiniteDividend (.infinite false) (.ofNat 7))) := by
    simp only [Session.source, overflowing_read]
    exact Progress.eq_error_of_fault? hfault
  have hfollows := (carryOut_follows (Progress.proper_fresh (.seeded 0 0) 0 []) overflowingLine).1
  rw [← Command.eq_run_of_source? hrun] at hfollows
  exact ⟨(((Command.ofLine_cases overflowingLine).2 _).mp hrun).1, hfollows.escapes hstep rfl⟩

/-- A line whose fault escapes, and the one after it. -/
theorem overflowing_turn_faithful :
    ∃ t ∈ turns [overflowingLine, "exit"] (Machine.fresh (.seeded 0 0) 0 []),
      t.text = overflowingLine ∧ t.Faithful :=
  ⟨_, List.mem_cons_self, rfl,
    turns_are_faithful (.seeded 0 0) 0 [] [overflowingLine, "exit"] _ List.mem_cons_self⟩

end Shell
end Script
