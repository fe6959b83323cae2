import BitwiseCircuit.Proofs.Command.Arguments
import BitwiseCircuit.Proofs.Command.Course

/-!
# What is shown of a circuit

The tokens, the tree and the words of a circuit are each shown if the stages up to them succeed,
and otherwise nothing is.  The other stages and the other options do not matter.

Main results:

- Definition `Request.display` is what a request shows of a text, or the fault that it meets.
- Theorem `Request.Takes.result_eq`: that is how the course of the request ends.
- Theorems `Request.session_of_display_eq_ok` and `Request.session_of_display_eq_error`: so
  that is what its session leaves.
- Theorem `Invocation.outcome_of_evaluate`: without an option, the command shows what the text
  evaluates to.
- Theorem `Invocation.outcome_of_mode`: the options to show something else need fewer stages, and
  a command that fails shows nothing.
-/

namespace BitwiseCircuit.Command

/-- The bytes of a text are read as the text. -/
theorem textOfBytes_toUTF8 (text : String) : textOfBytes text.toUTF8 = .ok text := by
  have hread : String.fromUTF8? text.toUTF8 = some text := dif_pos text.isValidUTF8
  rw [textOfBytes, hread]

namespace Request

variable {request : Request} {text : String} {source : Except ReadFailure String} {course : Course}

/-- What a request shows of a text, or the fault that it meets. -/
def display (request : Request) (text : String) : Except Fault String :=
  match request.subject with
  | .values => (evaluate text request.wires request.order).map showReport
  | .tokens => ((tokenize text).mapError .token).map showTokens
  | .tree => (Schematic.ofText text).map Schematic.toTree

private theorem display_of_values (h : request.subject = .values) (text : String) :
    request.display text = (evaluate text request.wires request.order).map showReport := by
  rw [display, h]

private theorem display_of_tokens (h : request.subject = .tokens) (text : String) :
    request.display text = ((tokenize text).mapError .token).map showTokens := by
  rw [display, h]

private theorem display_of_tree (h : request.subject = .tree) (text : String) :
    request.display text = (Schematic.ofText text).map Schematic.toTree := by
  rw [display, h]

/-- A text that is no list of tokens shows nothing, and neither do tokens that spell no schematic
unless they are to be shown themselves. -/
theorem display_eq_error {fault : Fault} (h : Schematic.ofText text = .error fault)
    (htokens : request.subject = .tokens → ∀ tokens, tokenize text ≠ .ok tokens) :
    request.display text = .error fault := by
  cases hsubject : request.subject with
  | values =>
      rw [display_of_values hsubject, evaluate_eq_bind, h]
      rfl
  | tree =>
      rw [display_of_tree hsubject, h]
      rfl
  | tokens =>
      rw [display_of_tokens hsubject]
      rw [Schematic.ofText] at h
      cases hresult : tokenize text with
      | ok tokens => exact absurd hresult (htokens hsubject tokens)
      | error cause =>
          rw [hresult] at h
          cases h
          rfl

/-- The course ends with what the request shows, or with the notice of the fault that it meets. -/
theorem Takes.result_eq (h : request.Takes (.ok text) course) :
    course.result =
      mapBoth (fun fault => (Notice.ofFault fault).render text) id (request.display text) := by
  cases h with
  | tokenFault htokens =>
      rw [display_eq_error (by rw [Schematic.ofText, htokens]; rfl) (by simp [htokens])]
      rfl
  | grammarFault hsubject htokens hschematic =>
      rw [display_eq_error (by rw [Schematic.ofText_of_tokenize htokens, hschematic]; rfl)
        fun hshown => absurd hshown hsubject]
      rfl
  | tokens hsubject htokens =>
      rw [display_of_tokens hsubject, htokens]
      rfl
  | tree hsubject htokens hschematic =>
      rw [display_of_tree hsubject, Schematic.ofText_eq_ok htokens hschematic]
      rfl
  | buildFault hsubject htokens hschematic hnet =>
      have htext := Schematic.ofText_eq_ok htokens hschematic
      rw [display_of_values hsubject, evaluate_of_ofText htext, hnet]
      rfl
  | wireFault hsubject htokens hschematic hnet hreport =>
      have htext := Schematic.ofText_eq_ok htokens hschematic
      rw [display_of_values hsubject, evaluate_of_ofSchematic htext hnet, hreport]
      rfl
  | values hsubject htokens hschematic hnet hreport =>
      have htext := Schematic.ofText_eq_ok htokens hschematic
      rw [display_of_values hsubject, evaluate_of_ofSchematic htext hnet, hreport]
      rfl

/-! ## What a session leaves -/

/-- The session of a request leaves what one course says. -/
theorem exists_session_eq (request : Request) (source : Except ReadFailure String) :
    ∃ course, request.Takes source course ∧ (request.session source).outcome =
      ⟨course.status, course.shown, course.told request.verbose ++ course.complaint⟩ := by
  rcases request.exists_takes source with ⟨course, htakes, houtcome⟩
  exact ⟨course, htakes, houtcome request.verbose⟩

/-- A session that fails shows nothing. -/
theorem stdout_eq_empty (h : (request.session source).outcome.status ≠ 0) :
    (request.session source).outcome.stdout = "" := by
  rcases request.exists_session_eq source with ⟨course, -, houtcome⟩
  rw [houtcome] at h ⊢
  cases hresult : course.result with
  | ok output => exact absurd (Course.of_ok hresult).1 h
  | error error => exact (Course.of_error hresult).2.1

/-- What a request shows is all that its session writes to the standard output. -/
theorem session_of_display_eq_ok {output : String} (h : request.display text = .ok output) :
    (request.session (.ok text)).outcome.status = 0 ∧
      (request.session (.ok text)).outcome.stdout = output := by
  rcases request.exists_session_eq (.ok text) with ⟨course, htakes, houtcome⟩
  have hresult := htakes.result_eq
  rw [h] at hresult
  rcases Course.of_ok hresult with ⟨hstatus, hshown, -⟩
  rw [houtcome]
  exact ⟨hstatus, hshown⟩

/-- A request that meets a fault shows nothing, and its session ends with the notice. -/
theorem session_of_display_eq_error {fault : Fault} (h : request.display text = .error fault) :
    (request.session (.ok text)).outcome.status = 1 ∧
      (request.session (.ok text)).outcome.stdout = "" ∧
      ∃ log, (request.session (.ok text)).outcome.stderr =
        log ++ "Error: " ++ (Notice.ofFault fault).render text ++ "\n" := by
  rcases request.exists_session_eq (.ok text) with ⟨course, htakes, houtcome⟩
  have hresult := htakes.result_eq
  rw [h] at hresult
  rcases Course.of_error hresult with ⟨hstatus, hshown, hcomplaint⟩
  rw [houtcome]
  refine ⟨hstatus, hshown, course.told request.verbose, ?_⟩
  rw [hcomplaint, ← String.append_assoc, ← String.append_assoc]

/-- The exit status is zero exactly if there is something to show. -/
theorem status_eq_zero_iff :
    (request.session (.ok text)).outcome.status = 0 ↔
      ∃ output, request.display text = .ok output := by
  cases hdisplay : request.display text with
  | ok output => simp [session_of_display_eq_ok hdisplay]
  | error fault => simp [session_of_display_eq_error hdisplay]

/-- Requests that show the same leave the same, except on the standard error. -/
theorem session_congr {request' : Request} (h : request.display text = request'.display text) :
    (request.session (.ok text)).outcome.status = (request'.session (.ok text)).outcome.status ∧
      (request.session (.ok text)).outcome.stdout =
        (request'.session (.ok text)).outcome.stdout := by
  cases hdisplay : request.display text with
  | ok output =>
      rcases session_of_display_eq_ok hdisplay with ⟨hstatus, hstdout⟩
      rw [h] at hdisplay
      rcases session_of_display_eq_ok hdisplay with ⟨hstatus', hstdout'⟩
      exact ⟨hstatus.trans hstatus'.symm, hstdout.trans hstdout'.symm⟩
  | error fault =>
      rcases session_of_display_eq_error hdisplay with ⟨hstatus, hstdout, -⟩
      rw [h] at hdisplay
      rcases session_of_display_eq_error hdisplay with ⟨hstatus', hstdout', -⟩
      exact ⟨hstatus.trans hstatus'.symm, hstdout.trans hstdout'.symm⟩

end Request

/-! ## What a command leaves -/

namespace Invocation

variable {words words' : List String} {request request' : Request}

/-- A command line that asks for a run has the outcome of the session. -/
theorem outcome_of_run (hrun : ofWords words = .run request) (source : Except ReadFailure String) :
    (ofWords words).outcome source = (request.session source).outcome := by
  rw [hrun]
  rfl

/-- A command line that asks neither for the tokens nor for the tree shows what the text evaluates
to, or the notice of the fault that the evaluation meets; where it names the wires to report, any
other order leaves the same. -/
theorem outcome_of_evaluate (hrun : ofWords words = .run request)
    (htokens : .flag .tokens ∉ Argument.ofWords words)
    (htree : .flag .tree ∉ Argument.ofWords words) (text : String) :
    (∀ report, evaluate text request.wires request.order = .ok report →
      ((ofWords words).outcome (textOfBytes text.toUTF8)).status = 0 ∧
      ((ofWords words).outcome (textOfBytes text.toUTF8)).stdout = String.join
        (report.map fun entry => entry.1 ++ ": " ++ entry.2.toDecimal ++ "\n")) ∧
    (∀ fault, evaluate text request.wires request.order = .error fault →
      ((ofWords words).outcome (textOfBytes text.toUTF8)).status = 1 ∧
      ((ofWords words).outcome (textOfBytes text.toUTF8)).stdout = "" ∧
      ∃ log, ((ofWords words).outcome (textOfBytes text.toUTF8)).stderr =
        log ++ "Error: " ++ (Notice.ofFault fault).render text ++ "\n") ∧
    (request.wires ≠ [] → ∀ words' request', ofWords words' = .run request' →
      .flag .tokens ∉ Argument.ofWords words' → .flag .tree ∉ Argument.ofWords words' →
      request'.wires = request.wires →
      ((ofWords words').outcome (textOfBytes text.toUTF8)).status =
          ((ofWords words).outcome (textOfBytes text.toUTF8)).status ∧
        ((ofWords words').outcome (textOfBytes text.toUTF8)).stdout =
          ((ofWords words).outcome (textOfBytes text.toUTF8)).stdout) := by
  have hvalues := (ofWords_eq_run_iff.mp hrun).subject_eq_values htokens htree
  have hdisplay := Request.display_of_values hvalues text
  rw [textOfBytes_toUTF8, outcome_of_run hrun]
  refine ⟨fun report hreport => ?_, fun fault hfault => ?_, ?_⟩
  · rw [hreport] at hdisplay
    exact Request.session_of_display_eq_ok hdisplay
  · rw [hfault] at hdisplay
    exact Request.session_of_display_eq_error hdisplay
  · intro hnames words' request' hrun' htokens' htree' hwires
    have hvalues' := (ofWords_eq_run_iff.mp hrun').subject_eq_values htokens' htree'
    rw [outcome_of_run hrun']
    refine Request.session_congr ?_
    rw [hdisplay, Request.display_of_values hvalues', hwires,
      evaluate_eq_of_ne_nil hnames text request'.order request.order]

/-- The text shifts `x`, which it mentions first, to the left. -/
def doubled : String :=
  "x LSHIFT 1 -> d\n3 -> x\n"

/-- The wires are shown as they are listed, without regard to the order of all wires. -/
theorem doubled_outcome_of_evaluate :
    ofWords ["--order=source", "-", "d", "x"] =
        .run ⟨"-", ["d", "x"], .byMention, .values, false⟩ ∧
      .flag .tokens ∉ Argument.ofWords ["--order=source", "-", "d", "x"] ∧
      .flag .tree ∉ Argument.ofWords ["--order=source", "-", "d", "x"] ∧
      ((ofWords ["--order=source", "-", "d", "x"]).outcome
        (textOfBytes doubled.toUTF8)).status = 0 ∧
      ((ofWords ["--order=source", "-", "d", "x"]).outcome
        (textOfBytes doubled.toUTF8)).stdout = "d: 6\nx: 3\n" ∧
      ((ofWords ["-", "d", "x"]).outcome (textOfBytes doubled.toUTF8)).stdout =
        ((ofWords ["--order=source", "-", "d", "x"]).outcome
          (textOfBytes doubled.toUTF8)).stdout := by
  have hrun : ofWords ["--order=source", "-", "d", "x"] =
      .run ⟨"-", ["d", "x"], .byMention, .values, false⟩ := by decide +kernel
  have htokens : .flag .tokens ∉ Argument.ofWords ["--order=source", "-", "d", "x"] := by
    decide +kernel
  have htree : .flag .tree ∉ Argument.ofWords ["--order=source", "-", "d", "x"] := by
    decide +kernel
  have hreport : evaluate doubled ["d", "x"] .byMention = .ok [("d", 6), ("x", 3)] := by
    decide +kernel
  rcases outcome_of_evaluate hrun htokens htree doubled with ⟨hok, -, hother⟩
  rcases hok _ hreport with ⟨hstatus, hstdout⟩
  refine ⟨hrun, htokens, htree, hstatus, hstdout.trans (by decide +kernel), ?_⟩
  exact (hother (by simp) ["-", "d", "x"] ⟨"-", ["d", "x"], .byName, .values, false⟩
    (by decide +kernel) (by decide +kernel) (by decide +kernel) rfl).2

/-- The tokens are shown of exactly those texts that have tokens, and the tree of those whose tokens
spell a schematic, whatever else the command line asks for.  A text whose wires are shown has both,
and a command that fails shows nothing. -/
theorem outcome_of_mode (hrun : ofWords words = .run request)
    (hrun' : ofWords words' = .run request') :
    (∀ source, ((ofWords words).outcome source).status ≠ 0 →
      ((ofWords words).outcome source).stdout = "") ∧
    (∀ failure, ((ofWords words).outcome (.error failure)).status = 1 ∧
      ((ofWords words).outcome (.error failure)).stdout = "") ∧
    ∀ text,
      (.flag .tokens ∈ Argument.ofWords words →
        (((ofWords words).outcome (.ok text)).status = 0 ↔ ∃ tokens, tokenize text = .ok tokens) ∧
        (∀ tokens, tokenize text = .ok tokens → ((ofWords words).outcome (.ok text)).stdout =
          String.join (tokens.map fun token => toString token ++ "\n")) ∧
        (.flag .tokens ∈ Argument.ofWords words' →
          ((ofWords words').outcome (.ok text)).stdout =
            ((ofWords words).outcome (.ok text)).stdout)) ∧
      (.flag .tree ∈ Argument.ofWords words →
        (((ofWords words).outcome (.ok text)).status = 0 ↔ ∃ tokens schematic,
          tokenize text = .ok tokens ∧ Schematic.ofTokens tokens = .ok schematic) ∧
        (∀ tokens schematic, tokenize text = .ok tokens →
          Schematic.ofTokens tokens = .ok schematic →
          ((ofWords words).outcome (.ok text)).stdout = schematic.toTree) ∧
        (.flag .tree ∈ Argument.ofWords words' →
          ((ofWords words').outcome (.ok text)).stdout =
            ((ofWords words).outcome (.ok text)).stdout)) ∧
      (.flag .tokens ∉ Argument.ofWords words → .flag .tree ∉ Argument.ofWords words →
        ((ofWords words).outcome (.ok text)).status = 0 →
        .flag .tokens ∈ Argument.ofWords words' ∨ .flag .tree ∈ Argument.ofWords words' →
        ((ofWords words').outcome (.ok text)).status = 0) := by
  have hstated := ofWords_eq_run_iff.mp hrun
  have hstated' := ofWords_eq_run_iff.mp hrun'
  simp only [outcome_of_run hrun, outcome_of_run hrun']
  refine ⟨fun source => Request.stdout_eq_empty, fun failure => ⟨rfl, rfl⟩,
    fun text => ⟨?_, ?_, ?_⟩⟩
  · intro htokens
    have hdisplay := Request.display_of_tokens (hstated.tokens.mp htokens) text
    refine ⟨?_, fun tokens hok => ?_, fun htokens' => ?_⟩
    · rw [Request.status_eq_zero_iff, hdisplay, exists_map_eq_ok_iff, exists_mapError_eq_ok_iff]
    · rw [hok] at hdisplay
      exact (Request.session_of_display_eq_ok hdisplay).2
    · refine (Request.session_congr ?_).2
      rw [hdisplay, Request.display_of_tokens (hstated'.tokens.mp htokens')]
  · intro htree
    have hdisplay := Request.display_of_tree (hstated.tree.mp htree) text
    refine ⟨?_, fun tokens schematic htokens hok => ?_, fun htree' => ?_⟩
    · rw [Request.status_eq_zero_iff, hdisplay, exists_map_eq_ok_iff,
        Schematic.exists_ofText_eq_ok_iff]
    · rw [Schematic.ofText_eq_ok htokens hok] at hdisplay
      exact (Request.session_of_display_eq_ok hdisplay).2
    · refine (Request.session_congr ?_).2
      rw [hdisplay, Request.display_of_tree (hstated'.tree.mp htree')]
  · intro htokens htree hstatus hmode'
    have hvalues := hstated.subject_eq_values htokens htree
    rw [Request.status_eq_zero_iff, Request.display_of_values hvalues, exists_map_eq_ok_iff]
      at hstatus
    rcases hstatus with ⟨report, hreport⟩
    rw [evaluate_eq_bind] at hreport
    rcases exists_of_bind_eq_ok hreport with ⟨schematic, hschematic, -⟩
    have hboth := Schematic.exists_ofText_eq_ok_iff.mp ⟨schematic, hschematic⟩
    rw [Request.status_eq_zero_iff]
    rcases hmode' with htokens' | htree'
    · rw [Request.display_of_tokens (hstated'.tokens.mp htokens'), exists_map_eq_ok_iff,
        exists_mapError_eq_ok_iff]
      exact hboth.imp fun tokens htokens => htokens.elim fun _ hboth => hboth.1
    · rw [Request.display_of_tree (hstated'.tree.mp htree'), exists_map_eq_ok_iff]
      exact ⟨schematic, hschematic⟩

/-- The tokens of an unfinished statement are shown, whatever else is asked for; and since its
wires can be shown, the tokens of a whole circuit can. -/
theorem unfinished_outcome_of_mode :
    ofWords ["--tokens", "-", "x"] = .run ⟨"-", ["x"], .byName, .tokens, false⟩ ∧
      ofWords ["-v", "--order", "source", "-", "--tokens"] =
        .run ⟨"-", [], .byMention, .tokens, true⟩ ∧
      ofWords ["-", "d"] = .run ⟨"-", ["d"], .byName, .values, false⟩ ∧
      ((ofWords ["--tokens", "-", "x"]).outcome (.ok "x ->")).status = 0 ∧
      ((ofWords ["--tokens", "-", "x"]).outcome (.ok "x ->")).stdout =
        "(Wire 'x' 1:1)\n(Arrow '->' 1:3)\n" ∧
      ((ofWords ["-v", "--order", "source", "-", "--tokens"]).outcome (.ok "x ->")).stdout =
        ((ofWords ["--tokens", "-", "x"]).outcome (.ok "x ->")).stdout ∧
      ((ofWords ["-", "d"]).outcome (.ok doubled)).status = 0 ∧
      ((ofWords ["--tokens", "-", "x"]).outcome (.ok doubled)).status = 0 := by
  have hrun : ofWords ["--tokens", "-", "x"] = .run ⟨"-", ["x"], .byName, .tokens, false⟩ := by
    decide +kernel
  have hrun' : ofWords ["-v", "--order", "source", "-", "--tokens"] =
      .run ⟨"-", [], .byMention, .tokens, true⟩ := by decide +kernel
  have hvalues : ofWords ["-", "d"] = .run ⟨"-", ["d"], .byName, .values, false⟩ := by
    decide +kernel
  have htokens : .flag .tokens ∈ Argument.ofWords ["--tokens", "-", "x"] := by decide +kernel
  have hstatus : ((ofWords ["-", "d"]).outcome (.ok doubled)).status = 0 := by decide +kernel
  rcases (outcome_of_mode hrun hrun').2.2 "x ->" with ⟨hmode, -, -⟩
  rcases hmode htokens with ⟨hzero, hshown, hsame⟩
  have hlexed : tokenize "x ->" = .ok [⟨.wire, "x", ⟨1, 1⟩⟩, ⟨.arrow, "->", ⟨1, 3⟩⟩] := by
    decide +kernel
  refine ⟨hrun, hrun', hvalues, hzero.mpr ⟨_, hlexed⟩, (hshown _ hlexed).trans (by decide +kernel),
    hsame (by decide +kernel), hstatus, ?_⟩
  exact ((outcome_of_mode hvalues hrun).2.2 doubled).2.2 (by decide +kernel) (by decide +kernel)
    hstatus (.inl htokens)

end Invocation

end BitwiseCircuit.Command
