import BitwiseCircuit.Command.Session
import BitwiseCircuit.Proofs.Evaluation.Culprits
import BitwiseCircuit.Proofs.Evaluation.Stages
import BitwiseCircuit.Proofs.Netlist.Dependencies
import BitwiseCircuit.Proofs.Notice.Rows

/-!
# The course of a session

A session goes through the stages of an evaluation until it has something to show, or until a
stage fails.  How far it comes does not depend on whether the stages are reported.

Main results:

- Definition `Session.on` runs a session, and Theorem `Session.on_bind` does so step by step.
- Definition `Course` is what a session tells and leaves; Definition `Request.Takes` says which
  course a request takes, from the text alone.
- Theorems `Request.builtSummary_eq` and `Request.resolvedSummary_eq`: the wires that a netlist
  has and the words that it computes are those that the schematic names and depends on.
- Theorem `Request.exists_takes`: every session has its course, and Theorem
  `Request.Takes.unique`: it has no other.
-/

namespace BitwiseCircuit.Command

/-! ## Sessions step by step -/

namespace Session

variable {α β ε : Type}

/-- The result of a session, and what is written to the standard error when it ends if `log` is
written there already. -/
def on (log : String) (session : Session α) : Except String α × String :=
  StateT.run (ExceptT.run session) log

@[simp]
theorem on_pure (log : String) (a : α) : (pure a : Session α).on log = (.ok a, log) :=
  rfl

@[simp]
theorem on_throw (log error : String) : (throw error : Session α).on log = (.error error, log) :=
  rfl

@[simp]
theorem on_tell (log text : String) : (tell text).on log = (.ok (), log ++ text) :=
  rfl

@[simp]
theorem on_bind (log : String) (first : Session α) (next : α → Session β) :
    (first >>= next).on log =
      match first.on log with
      | (.ok a, log') => (next a).on log'
      | (.error error, log') => (.error error, log') := by
  rcases hfirst : first.on log with ⟨result, log'⟩
  have hrun : (ExceptT.run first).run log = (result, log') := hfirst
  simp only [on, ExceptT.run_bind, StateT.run_bind, hrun]
  cases result <;> rfl

@[simp]
theorem on_stage_ok (log text : String) (toFault : ε → Fault) (a : α) :
    (stage text toFault (.ok a)).on log = (.ok a, log) :=
  rfl

@[simp]
theorem on_stage_error (log text : String) (toFault : ε → Fault) (fault : ε) :
    (stage text toFault (.error fault) : Session α).on log =
      (.error ((Notice.ofFault (toFault fault)).render text), log) :=
  rfl

private theorem outcome_eq (session : Session String) :
    session.outcome =
      match session.on "" with
      | (.ok output, log) => ⟨0, output, log⟩
      | (.error error, log) => ⟨1, "", log ++ "Error: " ++ error ++ "\n"⟩ :=
  rfl

end Session

/-! ## What a session tells and leaves -/

/-- Summaries of stages, one to a line, if they are wanted. -/
def summaries (verbose : Bool) (stages : List String) : String :=
  if verbose then String.join (stages.map (· ++ "\n")) else ""

@[simp]
theorem summaries_nil (verbose : Bool) : summaries verbose [] = "" := by
  cases verbose <;> rfl

@[simp]
theorem summaries_append (verbose : Bool) (first second : List String) :
    summaries verbose (first ++ second) = summaries verbose first ++ summaries verbose second := by
  cases verbose <;> simp [summaries]

/-- What a session tells and what it leaves. -/
structure Course where
  /-- The summaries of the stages that are completed before the wires are resolved. -/
  stages : List String
  /-- The warning, which comes before the wires are resolved; empty if there is none. -/
  warning : String
  /-- The summary of the resolution, if it is completed. -/
  resolved : List String
  /-- What is shown, or the error that ends the session. -/
  result : Except String String

namespace Course

/-- What is written to the standard error while the session goes on. -/
def told (course : Course) (verbose : Bool) : String :=
  summaries verbose course.stages ++ course.warning ++ summaries verbose course.resolved

/-- What is written to the standard error when the session ends. -/
def complaint (course : Course) : String :=
  match course.result with
  | .ok _ => ""
  | .error error => "Error: " ++ error ++ "\n"

/-- The exit status: one exactly if an error ends the session. -/
def status (course : Course) : Nat :=
  match course.result with
  | .ok _ => 0
  | .error _ => 1

/-- What is written to the standard output; nothing if an error ends the session. -/
def shown (course : Course) : String :=
  match course.result with
  | .ok output => output
  | .error _ => ""

/-- A session with a result shows it and ends without a complaint. -/
theorem of_ok {course : Course} {output : String} (h : course.result = .ok output) :
    course.status = 0 ∧ course.shown = output ∧ course.complaint = "" := by
  unfold status shown complaint
  rw [h]
  exact ⟨rfl, rfl, rfl⟩

/-- A session that an error ends shows nothing and complains of the error. -/
theorem of_error {course : Course} {error : String} (h : course.result = .error error) :
    course.status = 1 ∧ course.shown = "" ∧
      course.complaint = "Error: " ++ error ++ "\n" := by
  unfold status shown complaint
  rw [h]
  exact ⟨rfl, rfl, rfl⟩

end Course

private theorem Session.outcome_of_on {session : Session String} {course : Course} {verbose : Bool}
    (h : session.on "" = (course.result, course.told verbose)) :
    session.outcome =
      ⟨course.status, course.shown, course.told verbose ++ course.complaint⟩ := by
  rw [outcome_eq, h]
  cases hresult : course.result with
  | ok output =>
      rcases Course.of_ok hresult with ⟨hstatus, hshown, hcomplaint⟩
      rw [hstatus, hshown, hcomplaint, String.append_empty]
  | error error =>
      rcases Course.of_error hresult with ⟨hstatus, hshown, hcomplaint⟩
      rw [hstatus, hshown, hcomplaint, ← String.append_assoc, ← String.append_assoc]

/-! ## Reports as they are shown -/

/-- A report is shown on as many lines as it has entries, if no name has a newline. -/
theorem length_lines_showReport {report : Report}
    (h : ∀ entry ∈ report, '\n' ∉ entry.1.toList) :
    (Text.lines (Request.showReport report).toList).length = report.length := by
  have hshown : Request.showReport report =
      String.join (report.map fun entry => entry.1 ++ ": " ++ entry.2.toDecimal ++ "\n") := rfl
  rw [hshown,
    Text.length_lines_join fun entry : String × Word => entry.1 ++ ": " ++ entry.2.toDecimal]
  intro entry hmem
  have hname := h entry hmem
  have hword : '\n' ∉ entry.2.toDecimal.toList := not_mem_toString_nat (by decide) _
  simp [hname, hword]

/-- The wires that are reported have names without newlines, as they stand in a text. -/
theorem newline_not_mem_of_report {text : String} {schematic : Schematic} {net : Netlist}
    {names : List String} {order : Netlist.Order} {report : Report}
    (hschematic : Schematic.ofText text = .ok schematic)
    (hnet : Netlist.ofSchematic schematic = .ok net)
    (hreport : ((Netlist.report names order).on net).1 = .ok report) :
    ∀ entry ∈ report, '\n' ∉ entry.1.toList := by
  intro entry hmem
  have hcoherent := (Netlist.Reachable.built hnet).coherent
  rcases hcoherent.isNamed_of_mem_report hreport entry hmem with ⟨id, hnamed⟩
  rcases (Schematic.readFrom_of_ofText hschematic).readsAt_of_isNamed hnet hnamed with
    ⟨place, hreads⟩
  exact hreads.newline_not_mem

/-! ## The course of a request -/

namespace Request

/-- How many tokens there are. -/
def lexedSummary (tokens : List Token) : String :=
  "lexed " ++ toString tokens.length ++ " tokens"

/-- How many statements there are. -/
def parsedSummary (schematic : Schematic) : String :=
  "parsed " ++ toString schematic.statements.length ++ " statements"

/-- How many different names there are. -/
def builtSummary (schematic : Schematic) : String :=
  "built graph with " ++ toString schematic.names.card ++ " wires"

/-- How many lines are shown, and how many wires the reported wires depend on. -/
noncomputable def resolvedSummary (schematic : Schematic) (report : Report) : String :=
  "resolved " ++ toString (Text.lines (showReport report).toList).length ++ " wires with " ++
    toString (schematic.dependencies (report.map Prod.fst)).card ++ " gate evaluations"

/-- The warning of an order that has no effect. -/
def warningText (request : Request) : String :=
  if request.wires ≠ [] ∧ request.order ≠ .byName then
    "warning: --order is ignored when wires are listed\n"
  else
    ""

/-- The request takes the course on the source: the first stage that fails ends it, as does the
stage whose result is to be shown. -/
inductive Takes (request : Request) : Except ReadFailure String → Course → Prop where
  | unread (failure : ReadFailure) :
      Takes request (.error failure) ⟨[], "", [], .error (request.readError failure)⟩
  | tokenFault {text : String} {fault : TokenFault}
      (htokens : tokenize text = .error fault) :
      Takes request (.ok text) ⟨[], "", [], .error ((Notice.ofFault (.token fault)).render text)⟩
  | tokens {text : String} {tokens : List Token}
      (hsubject : request.subject = .tokens)
      (htokens : tokenize text = .ok tokens) :
      Takes request (.ok text) ⟨[lexedSummary tokens], "", [], .ok (showTokens tokens)⟩
  | grammarFault {text : String} {tokens : List Token} {fault : GrammarFault}
      (hsubject : request.subject ≠ .tokens)
      (htokens : tokenize text = .ok tokens)
      (hschematic : Schematic.ofTokens tokens = .error fault) :
      Takes request (.ok text)
        ⟨[lexedSummary tokens], "", [], .error ((Notice.ofFault (.grammar fault)).render text)⟩
  | tree {text : String} {tokens : List Token} {schematic : Schematic}
      (hsubject : request.subject = .tree)
      (htokens : tokenize text = .ok tokens)
      (hschematic : Schematic.ofTokens tokens = .ok schematic) :
      Takes request (.ok text)
        ⟨[lexedSummary tokens, parsedSummary schematic], "", [], .ok schematic.toTree⟩
  | buildFault {text : String} {tokens : List Token} {schematic : Schematic} {fault : WireFault}
      (hsubject : request.subject = .values)
      (htokens : tokenize text = .ok tokens)
      (hschematic : Schematic.ofTokens tokens = .ok schematic)
      (hnet : Netlist.ofSchematic schematic = .error fault) :
      Takes request (.ok text)
        ⟨[lexedSummary tokens, parsedSummary schematic], "", [],
          .error ((Notice.ofFault (.wire fault)).render text)⟩
  | wireFault {text : String} {tokens : List Token} {schematic : Schematic} {net : Netlist}
      {fault : WireFault}
      (hsubject : request.subject = .values)
      (htokens : tokenize text = .ok tokens)
      (hschematic : Schematic.ofTokens tokens = .ok schematic)
      (hnet : Netlist.ofSchematic schematic = .ok net)
      (hreport : ((Netlist.report request.wires request.order).on net).1 = .error fault) :
      Takes request (.ok text)
        ⟨[lexedSummary tokens, parsedSummary schematic, builtSummary schematic],
          request.warningText, [], .error ((Notice.ofFault (.wire fault)).render text)⟩
  | values {text : String} {tokens : List Token} {schematic : Schematic} {net : Netlist}
      {report : Report}
      (hsubject : request.subject = .values)
      (htokens : tokenize text = .ok tokens)
      (hschematic : Schematic.ofTokens tokens = .ok schematic)
      (hnet : Netlist.ofSchematic schematic = .ok net)
      (hreport : ((Netlist.report request.wires request.order).on net).1 = .ok report) :
      Takes request (.ok text)
        ⟨[lexedSummary tokens, parsedSummary schematic, builtSummary schematic],
          request.warningText, [resolvedSummary schematic report], .ok (showReport report)⟩

/-- A request takes only one course on a source. -/
theorem Takes.unique {request : Request} {source : Except ReadFailure String}
    {course course' : Course} (h : request.Takes source course)
    (h' : request.Takes source course') : course = course' := by
  cases h <;> cases h' <;> simp_all

/-! ## The summaries are true -/

variable {text : String} {tokens : List Token} {schematic : Schematic} {net : Netlist}

/-- A netlist has one wire for each name. -/
theorem builtSummary_eq (hnet : Netlist.ofSchematic schematic = .ok net) :
    builtSummary schematic = "built graph with " ++ toString net.size ++ " wires" := by
  unfold builtSummary
  rw [(Netlist.realizes_ofSchematic hnet).size_eq_card_names]

/-- A report has one line for each entry, and exactly the wires that it depends on are computed. -/
theorem resolvedSummary_eq {names : List String} {order : Netlist.Order} {report : Report}
    (htext : Schematic.ofText text = .ok schematic) (hnet : Netlist.ofSchematic schematic = .ok net)
    (hreport : ((Netlist.report names order).on net).1 = .ok report) :
    resolvedSummary schematic report =
      "resolved " ++ toString report.length ++ " wires with " ++
        toString ((Netlist.report names order).on net).2.evaluations ++ " gate evaluations" := by
  have hrealizes := Netlist.realizes_ofSchematic hnet
  have hcoherent := (Netlist.Reachable.built hnet).coherent
  have hlines := length_lines_showReport (newline_not_mem_of_report htext hnet hreport)
  rw [resolvedSummary, hlines, hrealizes.card_dependencies_eq,
    hcoherent.evaluations_of_report hrealizes.value hreport]

/-! ## Every session has its course -/

@[simp]
theorem on_summarise (request : Request) (log summary : String) :
    (request.summarise summary).on log = (.ok (), log ++ summaries request.verbose [summary]) := by
  unfold summarise summaries
  cases request.verbose <;> simp

@[simp]
theorem on_warn (request : Request) (log text : String) :
    (request.warn text).on log = (.ok (), log ++ request.warningText) := by
  have hrender : (Notice.warning "--order is ignored when wires are listed").render text =
      "warning: --order is ignored when wires are listed\n" := rfl
  unfold warn warningText
  rw [hrender]
  by_cases hwires : request.wires = []
  · simp [hwires]
  · cases horder : request.order <;> simp [hwires]

/-- The wires of a schematic are resolved and shown, or the first fault ends the session. -/
theorem exists_takes_of_schematic {request : Request} (hsubject : request.subject = .values)
    (htokens : tokenize text = .ok tokens)
    (hschematic : Schematic.ofTokens tokens = .ok schematic) :
    ∃ course, request.Takes (.ok text) course ∧ ∀ verbose,
      (showValues { request with verbose := verbose } text schematic).on
          (summaries verbose [lexedSummary tokens, parsedSummary schematic]) =
        (course.result, course.told verbose) := by
  cases hnet : Netlist.ofSchematic schematic with
  | error fault =>
      refine ⟨_, .buildFault hsubject htokens hschematic hnet, fun verbose => ?_⟩
      simp [showValues, hnet, Course.told]
  | ok net =>
      have hbuilt := builtSummary_eq hnet
      rcases hrun : (Netlist.report request.wires request.order).on net with ⟨result, net'⟩
      cases result with
      | error fault =>
          have hreport :
              ((Netlist.report request.wires request.order).on net).1 = .error fault := by
            rw [hrun]
          refine ⟨_, .wireFault hsubject htokens hschematic hnet hreport, fun verbose => ?_⟩
          simp only [showValues, hnet, hrun, ← hbuilt, Session.on_bind, Session.on_stage_ok,
            Session.on_stage_error, on_summarise, on_warn, Course.told, summaries_nil,
            String.append_empty, ← summaries_append, List.cons_append, List.nil_append]
          -- the warning does not depend on whether stages are reported
          rfl
      | ok report =>
          have hreport : ((Netlist.report request.wires request.order).on net).1 = .ok report := by
            rw [hrun]
          refine ⟨_, .values hsubject htokens hschematic hnet hreport, fun verbose => ?_⟩
          have htext := Schematic.ofText_eq_ok htokens hschematic
          have hresolved := resolvedSummary_eq htext hnet hreport
          rw [hrun] at hresolved
          simp only [showValues, hnet, hrun, ← hbuilt, ← hresolved, Session.on_bind,
            Session.on_stage_ok, on_summarise, on_warn, Session.on_pure, Course.told,
            ← summaries_append, List.cons_append, List.nil_append]
          rfl

/-- The tokens are read, and the schematic or its wires are shown, or the first fault ends the
session. -/
theorem exists_takes_of_tokens {request : Request} (hsubject : request.subject ≠ .tokens)
    (htokens : tokenize text = .ok tokens) :
    ∃ course, request.Takes (.ok text) course ∧ ∀ verbose,
      (showSchematic { request with verbose := verbose } text tokens).on
          (summaries verbose [lexedSummary tokens]) = (course.result, course.told verbose) := by
  cases hschematic : Schematic.ofTokens tokens with
  | error fault =>
      refine ⟨_, .grammarFault hsubject htokens hschematic, fun verbose => ?_⟩
      simp [showSchematic, hschematic, Course.told]
  | ok schematic =>
      have hparsed : "parsed " ++ toString schematic.statements.length ++ " statements" =
          parsedSummary schematic := rfl
      by_cases htree : request.subject = .tree
      · refine ⟨_, .tree htree htokens hschematic, fun verbose => ?_⟩
        simp only [showSchematic, hschematic, htree, hparsed, Session.on_bind,
          Session.on_stage_ok, on_summarise, if_true, Session.on_pure, Course.told,
          summaries_nil, String.append_empty, ← summaries_append, List.cons_append,
          List.nil_append]
      · have hvalues : request.subject = .values := by
          cases hshown : request.subject <;> simp_all
        rcases exists_takes_of_schematic hvalues htokens hschematic with ⟨course, htakes, hon⟩
        refine ⟨course, htakes, fun verbose => ?_⟩
        rw [← hon]
        simp only [showSchematic, hschematic, htree, hparsed, Session.on_bind,
          Session.on_stage_ok, on_summarise, if_false, ← summaries_append, List.cons_append,
          List.nil_append]

/-- Every session has its course, whether stages are reported or not. -/
theorem exists_takes (request : Request) (source : Except ReadFailure String) :
    ∃ course, request.Takes source course ∧ ∀ verbose,
      (session { request with verbose := verbose } source).outcome =
        ⟨course.status, course.shown, course.told verbose ++ course.complaint⟩ := by
  suffices hon : ∃ course, request.Takes source course ∧ ∀ verbose,
      (session { request with verbose := verbose } source).on "" =
        (course.result, course.told verbose) by
    rcases hon with ⟨course, htakes, hon⟩
    exact ⟨course, htakes, fun verbose => Session.outcome_of_on (hon verbose)⟩
  cases source with
  | error failure =>
      refine ⟨_, .unread failure, fun verbose => ?_⟩
      have hfailure : readError { request with verbose := verbose } failure =
          request.readError failure := rfl
      simp only [session, Session.on_throw, hfailure, Course.told, summaries_nil,
        String.append_empty]
  | ok text =>
      cases htokens : tokenize text with
      | error fault =>
          refine ⟨_, .tokenFault htokens, fun verbose => ?_⟩
          simp [session, htokens, Course.told]
      | ok tokens =>
          by_cases hsubject : request.subject = .tokens
          · refine ⟨_, .tokens hsubject htokens, fun verbose => ?_⟩
            simp only [session, htokens, hsubject, lexedSummary, Session.on_bind,
              Session.on_stage_ok, on_summarise, if_true, Session.on_pure, Course.told,
              summaries_nil, String.append_empty, String.empty_append]
          · rcases exists_takes_of_tokens hsubject htokens with ⟨course, htakes, hon⟩
            refine ⟨course, htakes, fun verbose => ?_⟩
            rw [← hon]
            simp only [session, htokens, hsubject, lexedSummary, Session.on_bind,
              Session.on_stage_ok, on_summarise, if_false, String.empty_append]

end Request

end BitwiseCircuit.Command
