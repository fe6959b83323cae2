import BitwiseCircuit.Proofs.Except
import BitwiseCircuit.Proofs.Token.Verdict
import BitwiseCircuit.Token.Scan

/-!
# Scanning run by run

A scanner goes through a text character by character and drops rules on the way.  What
it finds is what a lexicon says about the runs of the text one after the other.

Main results:

- Theorem `Fragment.Holds.close_eq`: a fragment that ends gives the verdict on its
  characters.
- Theorem `Scanner.scan_between`: between two runs, the rest of a scan judges the runs
  that follow.
- Theorem `Lexicon.tokenize_verdicts`: the tokens of a text are those of its runs, and the
  first run that is no token decides the fault.
-/

namespace BitwiseCircuit

variable {lexicon : Lexicon} {here start : Position} {letters rest : List Char} {c : Char}

/-! ## Fragments as characters read -/

namespace Fragment

variable {fragment : Fragment} {rules : List Rule} {spelling : String}

/-- The fragment is what is kept of the characters `letters` that were read from `start`
on. -/
structure Holds (fragment : Fragment) (lexicon : Lexicon) (start : Position)
    (letters : List Char) : Prop where
  start_eq : fragment.start = start
  spelling_eq : fragment.spelling = .ofList letters
  rules_eq : fragment.rules = lexicon.live letters

private theorem Holds.live_ne_nil (h : fragment.Holds lexicon start letters) :
    lexicon.live letters ≠ [] := by
  rw [← h.rules_eq]
  exact List.cons_ne_nil _ _

/-- A character that one of the rules admits makes a fragment longer. -/
theorem exists_extend (hrules : lexicon.live letters = rules.filter (·.shape.admits spelling c))
    (hspelling : spelling.push c = .ofList letters) (hlive : lexicon.live letters ≠ []) :
    ∃ fragment, extend rules start spelling here c = .ok fragment ∧
      fragment.Holds lexicon start letters := by
  rw [hrules] at hlive
  rcases hfilter : rules.filter (·.shape.admits spelling c) with _ | ⟨rule, rivals⟩
  · exact absurd hfilter hlive
  · refine ⟨⟨start, spelling.push c, rule, rivals⟩, ?_, rfl, hspelling, ?_⟩
    · simp only [extend, hfilter]
    · rw [hrules, hfilter, Fragment.rules]

/-- A character that no rule admits is a fault. -/
theorem extend_eq_error (h : rules.filter (·.shape.admits spelling c) = []) :
    extend rules start spelling here c = .error (.noMatch here c spelling) := by
  simp only [extend, h]

private theorem exists_ofChar (here : Position) (hlive : lexicon.live [c] ≠ []) :
    ∃ fragment, ofChar lexicon here c = .ok fragment ∧ fragment.Holds lexicon here [c] :=
  exists_extend Lexicon.live_singleton rfl hlive

private theorem ofChar_eq_error (hdead : lexicon.live [c] = []) :
    ofChar lexicon here c = .error (.noMatch here c "") :=
  extend_eq_error (Lexicon.live_singleton ▸ hdead)

private theorem Holds.filter_rules (h : fragment.Holds lexicon start letters) :
    lexicon.live (letters ++ [c]) = fragment.rules.filter (·.shape.admits fragment.spelling c) := by
  rw [h.rules_eq, h.spelling_eq, Lexicon.live_concat]

private theorem Holds.exists_push (h : fragment.Holds lexicon start letters) (here : Position)
    (hlive : lexicon.live (letters ++ [c]) ≠ []) :
    ∃ longer, fragment.push here c = .ok longer ∧ longer.Holds lexicon start (letters ++ [c]) := by
  rw [push, h.start_eq]
  refine exists_extend h.filter_rules ?_ hlive
  rw [h.spelling_eq, String.ofList_append]
  rfl

private theorem Holds.push_eq_error (h : fragment.Holds lexicon start letters)
    (hdead : lexicon.live (letters ++ [c]) = []) :
    fragment.push here c = .error (.noMatch here c (.ofList letters)) := by
  rw [push, extend_eq_error (h.filter_rules.symm.trans hdead), h.spelling_eq]

/-- A fragment that ends gives the verdict on the run that its characters are. -/
theorem Holds.close_eq {run : Text.Run} (h : fragment.Holds lexicon run.start run.letters) :
    fragment.close = lexicon.judge run := by
  symm
  rw [← Lexicon.verdict_iff]
  rcases fragment with ⟨start, spelling, rule, rivals⟩
  rcases h with ⟨rfl, rfl, hrules⟩
  cases rivals with
  | nil =>
      have hcompletes : rule.shape.completes (.ofList run.letters) = true ↔
          rule.shape.Spans run.letters := Shape.completes_iff run.letters_ne_nil
      by_cases hspans : rule.shape.Spans run.letters
      · simp only [close, if_pos (hcompletes.mpr hspans)]
        exact .token hrules.symm hspans
      · simp only [close, if_neg (mt hcompletes.mp hspans)]
        exact .unterminated hrules.symm hspans
  | cons rival rivals =>
      rw [close, hrules]
      refine .ambiguous ?_
      simp [← hrules, Fragment.rules]

end Fragment

/-! ## Scanning what is left of a text -/

namespace Scanner

variable {scanner : Scanner} {tokens : Array Token} {fragment : Fragment}

/-- The tokens of a text, the rest of which is still to be read. -/
def scan (lexicon : Lexicon) (scanner : Scanner) (rest : List Char) :
    Except TokenFault (List Token) := do
  let scanner ← rest.foldlM (step lexicon) scanner
  scanner.finish

@[simp]
theorem scan_nil : scan lexicon scanner [] = scanner.finish :=
  rfl

private theorem scan_cons : scan lexicon scanner (c :: rest) =
    (scanner.step lexicon c >>= fun next => scan lexicon next rest) := by
  rw [scan, List.foldlM_cons, bind_assoc]
  rfl

/-- The characters before a newline belong to an open comment. -/
theorem scan_comment (hletters : ∀ c ∈ letters, c ≠ '\n') :
    scan lexicon ⟨here, .comment, tokens⟩ (letters ++ rest) =
      scan lexicon ⟨here.after letters, .comment, tokens⟩ rest := by
  induction letters generalizing here with
  | nil => rfl
  | cons c letters ih =>
      rcases List.forall_mem_cons.mp hletters with ⟨hc, hletters⟩
      rw [List.cons_append, scan_cons, step, if_neg hc]
      exact ih hletters

/-- A newline, or the end of the text, ends a comment. -/
theorem scan_comment_end (hrest : ∀ c ∈ rest.head?, c = '\n') :
    scan lexicon ⟨here, .comment, tokens⟩ rest = scan lexicon ⟨here, .between, tokens⟩ rest := by
  cases rest with
  | nil => rfl
  | cons c rest =>
      obtain rfl : c = '\n' := hrest c rfl
      rw [scan_cons, scan_cons]
      rfl

/-- A blank, or the end of the text, ends a fragment. -/
theorem scan_within_end (hrest : ∀ c ∈ rest.head?, Text.isBlank c = true) :
    scan lexicon ⟨here, .within fragment, tokens⟩ rest =
      (fragment.close >>= fun token => scan lexicon ⟨here, .between, tokens.push token⟩ rest) := by
  cases rest with
  | nil => rfl
  | cons c rest =>
      have hblank := hrest c rfl
      simp only [scan_cons, step, if_pos hblank, bind_assoc]
      rfl

/-- Further characters of a run make its fragment longer until the run ends, or until no
rule is left. -/
theorem scan_within {run : Text.Run} {more : List Char}
    (hholds : fragment.Holds lexicon run.start letters) (hrun : run.letters = letters ++ more)
    (hrest : ∀ c ∈ rest.head?, Text.isBlank c = true) :
    scan lexicon ⟨run.start.after letters, .within fragment, tokens⟩ (more ++ rest) =
      (lexicon.judge run >>= fun token =>
        scan lexicon ⟨run.start.after run.letters, .between, tokens.push token⟩ rest) := by
  -- The run stays the same while its characters move from those to come to those read.
  induction more generalizing letters fragment with
  | nil =>
      obtain rfl : run.letters = letters := by simpa using hrun
      rw [List.nil_append, scan_within_end hrest, hholds.close_eq]
  | cons c more ih =>
      have hsolid : ¬ Text.isBlank c = true := by simp [run.not_isBlank c, hrun]
      rw [List.cons_append, scan_cons, step, if_neg hsolid]
      by_cases hdead : lexicon.live (letters ++ [c]) = []
      · have hverdict : lexicon.Verdict run
            (.error (.noMatch (run.start.after letters) c (.ofList letters))) :=
          .noMatch hrun (fun _ hshorter _ =>
            Lexicon.live_ne_nil_of_beginning hshorter hholds.live_ne_nil) hdead
        rw [hholds.push_eq_error hdead, hverdict.judge_eq]
        rfl
      · rcases hholds.exists_push (run.start.after letters) hdead with ⟨longer, hpush, hlonger⟩
        rw [hpush, ← ih hlonger (List.append_cons .. ▸ hrun), Position.after_append]
        rfl

/-- The first character of a run opens a fragment, which takes the others. -/
theorem scan_run {run : Text.Run} (hstart : run.start = here) (hrun : run.letters = c :: letters)
    (hhash : c ≠ '#') (hrest : ∀ c ∈ rest.head?, Text.isBlank c = true) :
    scan lexicon ⟨here, .between, tokens⟩ (c :: letters ++ rest) =
      (lexicon.judge run >>= fun token =>
        scan lexicon ⟨here.after run.letters, .between, tokens.push token⟩ rest) := by
  subst hstart
  have hsolid : ¬ Text.isBlank c = true := by simp [run.not_isBlank c, hrun]
  rw [List.cons_append, scan_cons, step, if_neg hsolid, if_neg hhash]
  by_cases hdead : lexicon.live [c] = []
  · have hverdict : lexicon.Verdict run (.error (.noMatch run.start c "")) :=
      .noMatch (hrun.trans (List.nil_append _).symm)
        (fun _ hshorter hne => absurd (List.prefix_nil.mp hshorter) hne) hdead
    rw [Fragment.ofChar_eq_error hdead, hverdict.judge_eq]
    rfl
  · rcases Fragment.exists_ofChar run.start hdead with ⟨fragment, hofChar, hholds⟩
    rw [hofChar]
    exact scan_within hholds hrun hrest

/-- Between two runs, the rest of a scan judges the runs that follow. -/
theorem scan_between : scan lexicon ⟨here, .between, tokens⟩ rest =
    ((Text.runsFrom here rest).mapM lexicon.judge >>= fun more => .ok (tokens.toList ++ more)) := by
  fun_induction Text.runsFrom here rest generalizing tokens with
  | case1 here =>
      rw [scan_nil, List.mapM_nil, pure_bind, List.append_nil]
      rfl
  | case2 here c rest hblank ih =>
      rw [scan_cons, step, if_pos hblank, ← ih]
      rfl
  | case3 here rest hblank ih =>
      have hcomment : ∀ d ∈ rest.takeWhile (· != '\n'), d ≠ '\n' :=
        fun d hd => by simpa using List.mem_takeWhile_imp hd
      have hrest : ∀ d ∈ (rest.dropWhile (· != '\n')).head?, d = '\n' :=
        fun d hd => by simpa using Text.eq_false_of_mem_head?_dropWhile hd
      rw [scan_cons, step, if_neg hblank, if_pos rfl, ← ih, ← scan_comment_end hrest,
        Position.after_cons, ← scan_comment hcomment, List.takeWhile_append_dropWhile]
      rfl
  | case4 here c rest hblank hhash ih =>
      have hrest : ∀ d ∈ (rest.dropWhile (!Text.isBlank ·)).head?, Text.isBlank d = true :=
        fun d hd => by simpa using Text.eq_false_of_mem_head?_dropWhile hd
      let run : Text.Run := .startingWith here c rest (by simpa using hblank)
      have hstart : run.start = here := rfl
      have hletters : run.letters = c :: rest.takeWhile (!Text.isBlank ·) := rfl
      have hscan : scan lexicon ⟨here, .between, tokens⟩ (c :: rest) =
          (lexicon.judge run >>= fun token =>
            scan lexicon ⟨here.after run.letters, .between, tokens.push token⟩
              (rest.dropWhile (!Text.isBlank ·))) := by
        rw [← scan_run hstart hletters hhash hrest, List.cons_append,
          List.takeWhile_append_dropWhile]
      rw [hscan, List.mapM_cons]
      simp only [hletters, ih, bind_assoc, pure_bind, Array.toList_push, List.append_assoc,
        List.singleton_append]
      rfl

end Scanner

/-! ## Whole texts -/

namespace Lexicon

/-- The tokens of a text are its runs, judged one after the other. -/
theorem tokenize_eq_mapM_judge (lexicon : Lexicon) (text : String) :
    lexicon.tokenize text = (Text.runs text).mapM lexicon.judge := by
  have hscan : lexicon.tokenize text = Scanner.scan lexicon ⟨.first, .between, #[]⟩ text.toList :=
    rfl
  rw [hscan, Scanner.scan_between]
  exact bind_pure _

/-- A text is a list of tokens exactly if each of its runs is one by itself, in the same
order; otherwise the fault is that of the first run that is no token. -/
theorem tokenize_verdicts (lexicon : Lexicon) (text : String) :
    (∀ tokens, lexicon.tokenize text = .ok tokens ↔
      List.Forall₂ (fun run token => lexicon.Verdict run (.ok token)) (Text.runs text) tokens) ∧
    ∀ fault, lexicon.tokenize text = .error fault ↔
      ∃ before run after, Text.runs text = before ++ run :: after ∧
        (∀ earlier ∈ before, ∃ token, lexicon.Verdict earlier (.ok token)) ∧
        lexicon.Verdict run (.error fault) := by
  simp only [tokenize_eq_mapM_judge, verdict_iff]
  exact ⟨fun tokens => mapM_eq_ok_iff, fun fault => mapM_eq_error_iff⟩

example : tokenize [⟨.binaryKeyword, .oneOf ["OR"]⟩, ⟨.shiftKeyword, .oneOf ["ORSHIFT"]⟩] "# x\nO" =
    .error (.ambiguous ⟨2, 1⟩ "O" [.binaryKeyword, .shiftKeyword]) := by
  decide +kernel

end Lexicon

end BitwiseCircuit
