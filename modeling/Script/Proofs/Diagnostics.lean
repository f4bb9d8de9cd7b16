import Script.Proofs.Recasting
import Script.Proofs.Concatenation
import Script.Proofs.Progress

/-!
# Diagnostics and echo

Neither the debug level nor the echo has an influence on what programs from source texts do. At a
lower debug level the same happens but for the messages of the higher levels, and with echo every
value but null is written out right after the statement that has it.
-/
namespace Script

/-- Whether an event happens at a debug level: messages have a level from which on they do. -/
def Event.madeAt (level : Nat) : Event → Bool
  | .logged s => (levelOf? s).any (· ≤ level)
  | _ => true

def Event.message? : Event → Option String
  | .logged s => some s
  | _ => none

/-- The machine at a lower debug level, without the messages of the higher ones. -/
def Machine.lowered (m : Machine) (level : Nat) : Machine :=
  m.recast level (·.filter (Event.madeAt level))

theorem lowering_filter {top level : Nat} (h : level ≤ top) :
    Lowering top level (·.filter (Event.madeAt level)) where
  le := h
  additive es e he := by
    have hmade : e.madeAt level = true := by
      cases e with
      | logged s => cases he
      | _ => rfl
    exact Array.filter_push_of_pos hmade (Array.size_push _)
  message es s l hl _ := by
    have hmade : (Event.logged s).madeAt level = decide (l ≤ level) := by simp [Event.madeAt, hl]
    split
    · exact Array.filter_push_of_pos (by simp_all) (Array.size_push _)
    · exact Array.filter_push_of_neg (by simp_all) (Array.size_push _)

namespace Progress

/-- No documented fault comes from something that cannot be shown. -/
theorem Documented.not_unshown {n : Machine} {fault : Fault}
    (h : Documented (fun fault _ => ¬ fault.Unshown) n fault) : ¬ fault.Unshown := by
  intro hu
  cases h with
  | stopped h => exact h hu
  | _ => cases hu

end Progress

section

variable {top level : Nat} {view : Array Event → Array Event}

/-- What shows everything runs alike on the recast machine. -/
theorem Reflected.eq_of_safe {α : Type} {x : Run α} (hx : Reflected top level view x)
    {P : α → Prop} (hs : Progress.Safe (fun fault _ => ¬ fault.Unshown) P x) {m : Machine}
    (hm : m.Proper) (hlevel : m.debugLevel = top) :
    x (m.recast level view) = onMachine (·.recast level view) (x m) ∧
      (machineOf (x m)).debugLevel = top := by
  have h := hx m hlevel
  have hfine := hs m hm
  generalize x m = r, x (m.recast level view) = r' at h hfine
  cases h with
  | same hr => exact ⟨rfl, hr⟩
  | unshown _ hu =>
    cases hfine with
    | error _ hd => exact absurd hu hd.not_unshown

end

namespace Session

variable {top level : Nat} {view : Array Event → Array Event}

theorem statement_reflected (hv : Lowering top level view) (echo : Bool) (n : Node) :
    Reflected top level view (statement echo n) := by
  refine (evaluate_reflected hv _ _ n _).bind fun v => ?_
  cases echo && !v.isNull with
  | false => exact (blind_pure v).reflected hv
  | true =>
    refine Blind.reflected (Blind.bind (blind_ofExcept _) fun line => ?_) hv
    exact (blind_write line).bind fun _ => blind_pure v

theorem statements_reflected (hv : Lowering top level view) (echo : Bool) (ns : List Node)
    (values : List Value) : Reflected top level view (statements echo values ns) := by
  induction ns generalizing values with
  | nil => exact (blind_pure _).reflected hv
  | cons n ns ih =>
    rw [statements_cons]
    exact (statement_reflected hv echo n).bind fun v => ih (v :: values)

/-- What happens in a statement that is run, and its value unless there is a fault. -/
structure Part where
  events : List Event
  value? : Option Value

def Part.of : EStateM.Result Fault Machine Value → Part
  | .ok v m => ⟨m.events.toList, some v⟩
  | .error _ m => ⟨m.events.toList, none⟩

/-- The parts of a run of statements, one for each statement that is run. -/
def parts : List Node → Machine → List Part
  | [], _ => []
  | n :: rest, m =>
      let run := evaluate passLimit depthLimit n Forest.root (m.withLog #[])
      Part.of run :: afterwards (fun _ => parts rest) run

/-- What the echo of a value adds: a line for every value but null. -/
def echoOf : Option Value → List Event
  | none | some .null => []
  | some v =>
      match v.content with
      | .ok line => [.wrote line]
      | .error _ => []

/-- What happens in the parts of a run, with the echo of each value right after its statement. -/
def logOf (echo : Bool) (ps : List Part) : List Event :=
  ps.flatMap fun p => p.events ++ if echo then echoOf p.value? else []

theorem logOf_cons (echo : Bool) (p : Part) (ps : List Part) :
    logOf echo (p :: ps) = logOf echo [p] ++ logOf echo ps := by
  simp [logOf]

@[simp] theorem parts_withLog (ns : List Node) (m : Machine) (es : Array Event) :
    parts ns (m.withLog es) = parts ns m := by
  cases ns <;> rfl

/-- The echo of a value. -/
theorem echo_apply (echo : Bool) {v : Value} (hv : v.Proper) (m : Machine) :
    ((do
      if echo && !v.isNull then Run.write (← v.content)
      return v) : Run Value) m =
      .ok v (m.withLog (m.events ++ (if echo then echoOf (some v) else []).toArray)) := by
  obtain ⟨s, hs⟩ := hv.content
  cases hecho : echo && !v.isNull with
  | false =>
    have hnone : (if echo then echoOf (some v) else []) = [] := by
      cases echo <;> cases v <;> simp_all [echoOf, Value.isNull]
    rw [hnone, Array.append_empty]
    rfl
  | true =>
    have hline : (if echo then echoOf (some v) else []) = [.wrote (.text s)] := by
      cases v <;> simp_all [echoOf, Value.isNull]
    rw [hline, hs, ← Array.push_eq_append]
    rfl

/-- One statement: its part of the log, and the echo of its value. -/
theorem statement_log (echo : Bool) {n : Node} (hn : n.Statement) {m : Machine} (hm : m.Proper) :
    statement echo n m =
      let run := evaluate passLimit depthLimit n Forest.root (m.withLog #[])
      onMachine (·.withLog (m.events ++ (logOf echo [.of run]).toArray)) run := by
  have hsafe := Progress.safe_evaluate passLimit depthLimit Forest.root hn (m.withLog #[]) hm
  have hahead := (evaluate_reflected (lowering_ahead m.debugLevel m.events) passLimit depthLimit n
    Forest.root).ahead.1
  simp only [statement, Bind.bind]
  rw [EStateM.bind, hahead]
  generalize evaluate passLimit depthLimit n Forest.root (m.withLog #[]) = r at hsafe
  cases hsafe with
  | error hk _ => simp [onMachine, logOf, Part.of, echoOf]
  | @ok v k hk hv =>
    refine (echo_apply echo hv _).trans ?_
    simp [onMachine, logOf, Part.of, Array.append_assoc, ← List.append_toArray]

/-- The log of statements consists of their parts, and nothing else depends on the echo. -/
theorem statements_log (echo : Bool) {ns : List Node} (hn : ∀ n ∈ ns, n.Statement)
    (values : List Value) {m : Machine} (hm : m.Proper) :
    statements echo values ns m =
      onMachine (·.withLog (m.events ++ (logOf echo (parts ns m)).toArray))
        (statements false values ns (m.withLog #[])) := by
  induction ns generalizing echo values m with
  | nil => simp [statements, onMachine, logOf, parts, pure, EStateM.pure]
  | cons n ns ih =>
    obtain ⟨hn₁, hn₂⟩ := List.forall_mem_cons.mp hn
    have hsafe := Progress.safe_evaluate passLimit depthLimit Forest.root hn₁ (m.withLog #[]) hm
    have hecho := statement_log echo hn₁ hm
    have hsilent := statement_log false hn₁ (m := m.withLog #[]) hm
    simp only [statements_cons, parts, bind, EStateM.bind, hecho, hsilent, Machine.withLog_withLog]
    generalize evaluate passLimit depthLimit n Forest.root (m.withLog #[]) = r at hsafe
    cases hsafe with
    | error hk _ => simp [onMachine, afterwards]
    | @ok v k hk hv =>
      have hrest (echo : Bool) (es : Array Event) :=
        ih echo hn₂ (v :: values) (m := k.withLog es) hk
      simp only [Machine.withLog_withLog, Machine.events_withLog, parts_withLog] at hrest
      simp only [onMachine, afterwards]
      rw [hrest echo, hrest false (_ ++ _), logOf_cons echo _ (parts ns k)]
      cases statements false (v :: values) ns (k.withLog #[]) <;> simp [onMachine]

/-- What one step of a session shows: what it gives, what happens in it, and the scopes after it. -/
structure Report where
  result : Except StepFault (List Value)
  events : List Event
  forest : Forest

def reports : List (Bool × Step) → Machine → List Report
  | [], _ => []
  | (echo, step) :: rest, m =>
      let o := step.run echo m
      ⟨o.1, o.2.eventsFrom m.events.size, o.2.forest⟩ :: reports rest o.2

def statementsRead (text : String) : List Node :=
  match Node.ofSource text with
  | .ok (.program (.list ns)) => ns
  | _ => []

/-- What one step of a session without echo comes to, with its parts. -/
structure Trace where
  result : Except StepFault (List Value)
  parts : List Part
  forest : Forest

def traces : List String → Machine → List Trace
  | [], _ => []
  | text :: rest, m =>
      let o := source false text (m.withLog #[])
      ⟨o.1, parts (statementsRead text) m, o.2.forest⟩ :: traces rest o.2

theorem traces_withLog (texts : List String) (m : Machine) (es : Array Event) :
    traces texts (m.withLog es) = traces texts m := by
  cases texts with
  | nil => rfl
  | cons text texts => simp only [traces, parts_withLog, Machine.withLog_withLog]

def echoed (echoes : Nat → Bool) (texts : List String) : List (Bool × Step) :=
  texts.mapIdx fun i text => (echoes i, .source text)

def Trace.report (t : Trace) (echo : Bool) : Report := ⟨t.result, logOf echo t.parts, t.forest⟩

theorem source_log (echo : Bool) {text : String} {tree : Node} (ht : Node.ofSource text = .ok tree)
    {m : Machine} (hm : m.Proper) :
    source echo text m =
      let o := source false text (m.withLog #[])
      (o.1, o.2.withLog (m.events ++ (logOf echo (parts (statementsRead text) m)).toArray)) := by
  obtain ⟨hs⟩ := Node.wellFormed_of_ofSource ht
  rename_i ss
  have h := statements_log echo hs [] hm
  simp only [source, statementsRead, ht, tree_list, h]
  cases statements false [] ss (m.withLog #[]) <;> rfl

theorem reports_echoed (echoes : Nat → Bool) {texts : List String}
    (h : ∀ text ∈ texts, ∃ tree, Node.ofSource text = .ok tree) {m : Machine} (hm : m.Proper) :
    reports (echoed echoes texts) m =
      (traces texts m).mapIdx fun i t => t.report (echoes i) := by
  induction texts generalizing echoes m with
  | nil => rfl
  | cons text texts ih =>
    obtain ⟨⟨tree, ht⟩, htexts⟩ := List.forall_mem_cons.mp h
    obtain ⟨-, hproper⟩ := Progress.expected_source (echoes 0) ht hm
    have hrest := ih (fun i => echoes (i + 1)) htexts hproper
    have hstep := source_log (echoes 0) ht hm
    simp only [echoed, List.mapIdx_cons, reports, Step.run, traces] at hrest ⊢
    rw [hrest, hstep, traces_withLog]
    simp [Trace.report, Machine.eventsFrom, Machine.withLog]

def Part.lowered (p : Part) (level : Nat) : Part :=
  ⟨p.events.filter (Event.madeAt level), p.value?⟩

def Trace.lowered (t : Trace) (level : Nat) : Trace :=
  { t with parts := t.parts.map (·.lowered level) }

theorem lowered_withLog (m : Machine) (level : Nat) :
    (m.lowered level).withLog #[] = (m.withLog #[]).lowered level := by
  simp [Machine.lowered, Machine.recast, Machine.seen, Machine.withLog]

theorem Part.of_lowered (r : EStateM.Result Fault Machine Value) (level : Nat) :
    Part.of (onMachine (·.lowered level) r) = (Part.of r).lowered level := by
  cases r <;> simp [Part.of, onMachine, Part.lowered, Machine.lowered, Machine.recast, Machine.seen]

theorem parts_lowered {ns : List Node} (hn : ∀ n ∈ ns, n.Statement) {m : Machine} (hm : m.Proper)
    (hl : level ≤ m.debugLevel) :
    parts ns (m.lowered level) = (parts ns m).map (·.lowered level) := by
  induction ns generalizing m with
  | nil => rfl
  | cons n ns ih =>
    obtain ⟨hn₁, hn₂⟩ := List.forall_mem_cons.mp hn
    have hsafe := Progress.safe_evaluate passLimit depthLimit Forest.root hn₁
    obtain ⟨hrun, hlevel⟩ : evaluate passLimit depthLimit n Forest.root
        ((m.withLog #[]).lowered level) = onMachine (·.lowered level) _ ∧ _ :=
      (evaluate_reflected (lowering_filter hl) passLimit depthLimit n
        Forest.root).eq_of_safe hsafe (m := m.withLog #[]) hm rfl
    have hfine := hsafe (m.withLog #[]) hm
    simp only [parts, lowered_withLog, List.map_cons, hrun, Part.of_lowered]
    generalize evaluate passLimit depthLimit n Forest.root (m.withLog #[]) = r at hfine hlevel
    cases hfine with
    | error _ _ => rfl
    | ok hk _ => exact congrArg _ (ih hn₂ hk (hlevel ▸ hl))

theorem source_lowered (echo : Bool) {text : String} {tree : Node}
    (ht : Node.ofSource text = .ok tree) {m : Machine} (hm : m.Proper) (hl : level ≤ m.debugLevel) :
    source echo text (m.lowered level) =
        ((source echo text m).1, (source echo text m).2.lowered level) ∧
      (source echo text m).2.debugLevel = m.debugLevel := by
  obtain ⟨hs⟩ := Node.wellFormed_of_ofSource ht
  rename_i ss
  obtain ⟨hrun, hlevel⟩ :
      statements echo [] ss (m.lowered level) = onMachine (·.lowered level) _ ∧ _ :=
    (statements_reflected (lowering_filter hl) echo ss []).eq_of_safe
      (Progress.safe_statements echo hs []) hm rfl
  simp only [source, ht, tree_list, hrun]
  cases hr : statements echo [] ss m with
  | ok values k | error fault k =>
    rw [hr] at hlevel
    exact ⟨rfl, hlevel⟩

/-- At a lower debug level the traces are the same but for the messages of the higher levels. -/
theorem traces_lowered {texts : List String}
    (h : ∀ text ∈ texts, ∃ tree, Node.ofSource text = .ok tree) {m : Machine} (hm : m.Proper)
    (hl : level ≤ m.debugLevel) :
    traces texts (m.lowered level) = (traces texts m).map (·.lowered level) := by
  induction texts generalizing m with
  | nil => rfl
  | cons text texts ih =>
    obtain ⟨⟨tree, ht⟩, htexts⟩ := List.forall_mem_cons.mp h
    obtain ⟨hs⟩ := Node.wellFormed_of_ofSource ht
    obtain ⟨hrun, hlevel⟩ := source_lowered false ht (m := m.withLog #[]) hm hl
    obtain ⟨-, hproper⟩ := Progress.expected_source false ht (m := m.withLog #[]) hm
    have hparts := parts_lowered hs hm hl
    simp only [traces, lowered_withLog, hrun, statementsRead, ht, hparts, List.map_cons,
      ih htexts hproper (hlevel ▸ hl)]
    rfl

theorem lowered_fresh (ambient : Ambient) (inputs : List String) (top level : Nat) :
    (Machine.fresh ambient top inputs).lowered level = Machine.fresh ambient level inputs := rfl

/-- The values of the parts of a run, for what the run gives: only the last one may be missing. -/
inductive Fits : Except StepFault (List Value) → List (Option Value) → Prop
  | values (vs : List Value) : Fits (.ok vs) (vs.map some)
  | fault (fault : StepFault) (vs : List Value) : Fits (.error fault) (vs.map some ++ [none])

/-- The parts have the values that the run collects. -/
theorem parts_fit {ns : List Node} (hn : ∀ n ∈ ns, n.Statement) (values : List Value) {m : Machine}
    (hm : m.Proper) :
    match statements false values ns m with
    | .ok vs _ => vs.map some = values.reverse.map some ++ (parts ns m).map (·.value?)
    | .error _ _ => ∃ vs : List Value, (parts ns m).map (·.value?) = vs.map some ++ [none] := by
  induction ns generalizing values m with
  | nil => simp [statements, parts, pure, EStateM.pure]
  | cons n ns ih =>
    obtain ⟨hn₁, hn₂⟩ := List.forall_mem_cons.mp hn
    have hsafe := Progress.safe_evaluate passLimit depthLimit Forest.root hn₁ (m.withLog #[]) hm
    have hrun := statement_log false hn₁ hm
    simp only [statements_cons, parts, bind, EStateM.bind, hrun]
    generalize evaluate passLimit depthLimit n Forest.root (m.withLog #[]) = r at hsafe
    cases hsafe with
    | error hk _ => exact ⟨[], rfl⟩
    | @ok v k hk hv =>
      have h := ih hn₂ (v :: values)
        (m := k.withLog (m.events ++ (logOf false [.of (.ok v k)]).toArray)) hk
      simp only [onMachine, afterwards, parts_withLog] at h ⊢
      split at h
      · simpa [Part.of] using h
      · obtain ⟨vs, hvs⟩ := h
        exact ⟨v :: vs, by simp [Part.of, hvs]⟩

theorem parts_proper {ns : List Node} (hn : ∀ n ∈ ns, n.Statement) {m : Machine} (hm : m.Proper) :
    ∀ p ∈ parts ns m, ∀ v ∈ p.value?, v.Proper := by
  induction ns generalizing m with
  | nil => simp [parts]
  | cons n ns ih =>
    obtain ⟨hn₁, hn₂⟩ := List.forall_mem_cons.mp hn
    have hsafe := Progress.safe_evaluate passLimit depthLimit Forest.root hn₁ (m.withLog #[]) hm
    simp only [parts]
    generalize evaluate passLimit depthLimit n Forest.root (m.withLog #[]) = r at hsafe
    cases hsafe with
    | error hk _ => simp [Part.of, afterwards]
    | ok hk hv => exact List.forall_mem_cons.mpr ⟨by simpa [Part.of] using hv, ih hn₂ hk⟩

theorem traces_fit {texts : List String}
    (h : ∀ text ∈ texts, ∃ tree, Node.ofSource text = .ok tree) {m : Machine} (hm : m.Proper) :
    ∀ t ∈ traces texts m, Fits t.result (t.parts.map (·.value?)) ∧
      ∀ p ∈ t.parts, ∀ v ∈ p.value?, ∃ s, v.content = .ok (.text s) := by
  induction texts generalizing m with
  | nil => simp [traces]
  | cons text texts ih =>
    obtain ⟨⟨tree, ht⟩, htexts⟩ := List.forall_mem_cons.mp h
    obtain ⟨hs⟩ := Node.wellFormed_of_ofSource ht
    rename_i ss
    obtain ⟨-, hproper⟩ := Progress.expected_source false ht (m := m.withLog #[]) hm
    refine List.forall_mem_cons.mpr ⟨⟨?_, ?_⟩, ih htexts hproper⟩
    · have hfit := parts_fit hs [] (m := m.withLog #[]) hm
      simp only [source, statementsRead, ht, tree_list, parts_withLog] at hfit ⊢
      cases hr : statements false [] ss (m.withLog #[]) with
      | ok vs k =>
        simp only [hr, List.reverse_nil, List.map_nil, List.nil_append] at hfit
        exact hfit ▸ .values vs
      | error fault k =>
        simp only [hr] at hfit
        obtain ⟨vs, hvs⟩ := hfit
        exact hvs ▸ .fault _ vs
    · simp only [statementsRead, ht]
      exact fun p hp v hv => (parts_proper hs hm p hp v hv).content

def Report.io (r : Report) : List Event := r.events.filter (!·.isMessage)

def Report.messages (r : Report) : List String := r.events.filterMap Event.message?

theorem Trace.io_lowered (t : Trace) (level : Nat) (echo : Bool) :
    ((t.lowered level).report echo).io = (t.report echo).io := by
  have hmade (e : Event) : (!e.isMessage && e.madeAt level) = !e.isMessage := by
    cases e <;> simp [Event.isMessage, Event.madeAt]
  simp [Report.io, Trace.report, Trace.lowered, Part.lowered, logOf, List.flatMap_map,
    List.filter_flatMap, List.filter_filter, hmade]

theorem Trace.messages_report (t : Trace) (echo : Bool) :
    (t.report echo).messages = t.parts.flatMap fun p => p.events.filterMap Event.message? := by
  have hecho (v? : Option Value) : (echoOf v?).filterMap Event.message? = [] := by
    unfold echoOf
    split
    · rfl
    · rfl
    · split <;> rfl
  simp only [Report.messages, Trace.report, logOf, List.filterMap_flatMap, List.filterMap_append]
  refine List.flatMap_congr fun p _ => ?_
  cases echo <;> simp [hecho]

theorem Part.messages_lowered (p : Part) (level : Nat) :
    (p.lowered level).events.filterMap Event.message? =
      (p.events.filterMap Event.message?).filter fun s => (levelOf? s).any (· ≤ level) := by
  simp only [Part.lowered, List.filterMap_filter, List.filter_filterMap]
  refine List.filterMap_congr fun e _ => ?_
  cases e <;> rfl

theorem Trace.messages_lowered (t : Trace) (level : Nat) (echo : Bool) :
    ((t.lowered level).report echo).messages =
      (t.report echo).messages.filter fun s => (levelOf? s).any (· ≤ level) := by
  simp only [Trace.messages_report, Trace.lowered, List.flatMap_map, Part.messages_lowered,
    List.filter_flatMap]

theorem two_le_of_levelOf? {s : String} {l : Nat} (h : levelOf? s = some l) : 2 ≤ l := by
  have hleast : ∀ o ∈ openings, 2 ≤ o.2 := by decide
  obtain ⟨o, ho, rfl⟩ := Option.map_eq_some_iff.mp h
  exact hleast o (List.mem_of_find?_eq_some ho)

theorem map_reports {β : Type} (g : Report → β) (ambient : Ambient) (inputs : List String)
    {texts : List String} (h : ∀ text ∈ texts, ∃ tree, Node.ofSource text = .ok tree)
    (echoes : Nat → Bool) (hl : level ≤ top) :
    (reports (echoed echoes texts) (Machine.fresh ambient level inputs)).map g =
      (traces texts (Machine.fresh ambient top inputs)).mapIdx fun i t =>
        g ((t.lowered level).report (echoes i)) := by
  rw [reports_echoed echoes h (Progress.proper_fresh ambient level inputs),
    ← lowered_fresh ambient inputs top level,
    traces_lowered h (Progress.proper_fresh ambient top inputs) hl]
  exact List.ext_getElem? fun i => by simp [Function.comp_def]

/-- A session of source texts at a debug level, with an echo of the steps as given. -/
def watched (ambient : Ambient) (inputs texts : List String) (level : Nat) (echoes : Nat → Bool) :
    List Report :=
  reports (echoed echoes texts) (Machine.fresh ambient level inputs)

/-- Neither the debug level nor the echo has an influence on what a session of source texts comes
to. What happens outside does not depend on the debug level, and with the echo of a step each value
but null is written out right after its statement. At a lower debug level the messages of the level
above are missing and no others: there are none below level two, and declarations, decisions and
calls make theirs from the levels two, three and four on. -/
theorem watching_is_inert (ambient : Ambient) (inputs : List String) {texts : List String}
    (h : ∀ text ∈ texts, ∃ tree, Node.ofSource text = .ok tree) :
    (∀ level level' echoes echoes',
      (watched ambient inputs texts level echoes).map (fun r => (r.result, r.forest)) =
        (watched ambient inputs texts level' echoes').map fun r => (r.result, r.forest)) ∧
    (∀ level level' echoes,
      (watched ambient inputs texts level echoes).map Report.io =
        (watched ambient inputs texts level' echoes).map Report.io) ∧
    (∀ level,
      (∀ echoes, (watched ambient inputs texts level echoes).map (·.events) =
        (traces texts (Machine.fresh ambient level inputs)).mapIdx fun i t =>
          logOf (echoes i) t.parts) ∧
      ∀ t ∈ traces texts (Machine.fresh ambient level inputs),
        Fits t.result (t.parts.map (·.value?)) ∧
          ∀ p ∈ t.parts, ∀ v ∈ p.value?, ∃ s, v.content = .ok (.text s)) ∧
    (∀ level echoes echoes',
      (watched ambient inputs texts level echoes).map Report.messages =
        (watched ambient inputs texts (level + 1) echoes').map fun r =>
          r.messages.filter (levelOf? · ≠ some (level + 1))) ∧
    (∀ level echoes, ∀ r ∈ watched ambient inputs texts level echoes, ∀ s ∈ r.messages,
      ∃ l, levelOf? s = some l ∧ 2 ≤ l ∧ l ≤ level) ∧
    ∀ passes depth n l scope m v m', evaluate passes depth n scope m = .ok v m' →
      n.toldFrom? = some l → l ≤ m.debugLevel →
      ∃ es s, m'.events = m.events ++ es ∧ .logged s ∈ es ∧ levelOf? s = some l := by
  have hmap {β : Type} (g : Report → β) {level top : Nat} (echoes) (hl : level ≤ top) :
      (watched ambient inputs texts level echoes).map g = _ :=
    map_reports g ambient inputs h echoes hl
  refine ⟨fun level level' echoes echoes' => ?_, fun level level' echoes => ?_,
    fun level => ⟨fun echoes => ?_, ?_⟩, fun level echoes echoes' => ?_,
    fun level echoes r hr s hs => ?_, ?_⟩
  · rw [hmap _ echoes (Nat.le_max_left level level'),
      hmap _ echoes' (Nat.le_max_right level level')]
    rfl
  · rw [hmap _ echoes (Nat.le_max_left level level'), hmap _ echoes (Nat.le_max_right level level')]
    simp only [Trace.io_lowered]
  · rw [watched, reports_echoed echoes h (Progress.proper_fresh ambient level inputs)]
    exact List.ext_getElem? fun i => by simp [Function.comp_def, Trace.report]
  · exact traces_fit h (Progress.proper_fresh ambient level inputs)
  · have hbelow (s : String) : (levelOf? s).any (· ≤ level) =
        (decide (levelOf? s ≠ some (level + 1)) && (levelOf? s).any (· ≤ level + 1)) := by
      cases levelOf? s with
      | none => rfl
      | some l => grind
    rw [hmap _ echoes (Nat.le_succ level), hmap _ echoes' (Nat.le_refl (level + 1))]
    simp only [Trace.messages_lowered, List.filter_filter, ← hbelow]
    simp only [Trace.messages_report]
  · have hreports := hmap id echoes (Nat.le_refl level)
    rw [List.map_id] at hreports
    rw [hreports] at hr
    obtain ⟨i, _, rfl⟩ := List.mem_mapIdx.mp hr
    rw [id, Trace.messages_lowered, List.mem_filter, Option.any_eq_true] at hs
    obtain ⟨-, l, hlevel, hl⟩ := hs
    exact ⟨l, hlevel, two_le_of_levelOf? hlevel, of_decide_eq_true hl⟩
  · exact fun passes depth n l scope m v m' hrun hn hl => evaluate_tells hn hl hrun

/-- A declaration at level two with echo, and the same at level one without. -/
theorem watching_is_inert_declaration :
    let loud := watched (.seeded 0 0) [] ["var a=1;"] 2 fun _ => true
    let silent := watched (.seeded 0 0) [] ["var a=1;"] 1 fun _ => false
    loud.map Report.messages = [["declare var a: number = 1"]] ∧ silent.map Report.messages = [[]] ∧
      silent.map (fun r => (r.result, r.forest)) = loud.map fun r => (r.result, r.forest) := by
  intro loud silent
  have hone : Token.IsNumeral "1".toList := .whole (by decide) (List.all_eq_true.mp (by decide))
  have hdecl : Node.Statement
      (.varDecl (.text "a") (.numberLiteral (.text "1")) (.boolean false)) :=
    .declaration (.initialized false (by decide) (.number hone))
  have hread : Node.ofSource "var a=1;" = .ok (.program (.list
      [.varDecl (.text "a") (.numberLiteral (.text "1")) (.boolean false)])) :=
    Node.ofSource_of_tokens (.program (by simpa using hdecl)) (by decide +kernel)
  have hloud : loud.map Report.messages = [["declare var a: number = 1"]] := by
    simp only [loud, watched, echoed, List.mapIdx_cons, List.mapIdx_nil, reports, Step.run, source,
      hread]
    decide +kernel
  have h := @watching_is_inert (.seeded 0 0) [] ["var a=1;"] fun text ht =>
    ⟨_, (List.mem_singleton.mp ht).symm ▸ hread⟩
  refine ⟨hloud, ?_, h.1 1 2 _ _⟩
  rw [h.2.2.2.1 1 (fun _ => false) fun _ => true]
  calc loud.map (fun r => r.messages.filter (levelOf? · ≠ some 2))
    _ = (loud.map Report.messages).map (·.filter (levelOf? · ≠ some 2)) := by
      rw [List.map_map]
      rfl
    _ = [[]] := by
      rw [hloud]
      decide +kernel

end Session
end Script
