import Mathlib.Data.List.Induction
import BitwiseCircuit.Proofs.Text.Runs
import BitwiseCircuit.Token.Fault
import BitwiseCircuit.Token.Lexicon

/-!
# The verdict of a lexicon on a run

A lexicon can be asked about a run as a whole: which of its rules the run fits, and
whether the run is a token, or what is wrong with it.

Main results:

- Definitions `Shape.Fits` and `Lexicon.live` say which rules some characters fit;
  Theorem `Lexicon.live_concat` relates them to the test of one more character.
- Definition `Lexicon.Verdict` describes the four possible verdicts, and definition
  `Lexicon.judge` computes one.
- Theorem `Lexicon.verdict_iff`: the two agree, so each run has exactly one verdict.
-/

namespace BitwiseCircuit

variable {letters more before : List Char} {c : Char}

/-! ## Shapes that fit -/

namespace Shape

variable {shape : Shape}

/-- The characters are a spelling of the shape or, for a list of words, the beginning of
one. -/
def Fits (shape : Shape) (letters : List Char) : Prop :=
  match shape with
  | digits => ∀ c ∈ letters, c.isDigit = true
  | Shape.letters => ∀ c ∈ letters, c.isLower = true
  | oneOf words => ∃ word ∈ words, letters <+: word.toList

instance (shape : Shape) (letters : List Char) : Decidable (shape.Fits letters) :=
  match shape with
  | digits => inferInstanceAs (Decidable (∀ c ∈ letters, c.isDigit = true))
  | Shape.letters => inferInstanceAs (Decidable (∀ c ∈ letters, c.isLower = true))
  | oneOf words => inferInstanceAs (Decidable (∃ word ∈ words, letters <+: word.toList))

/-- What fits a shape fits it from its beginning on. -/
theorem Fits.of_append (h : shape.Fits (letters ++ more)) : shape.Fits letters := by
  cases shape with
  | digits => exact fun c hc => h c (List.mem_append_left more hc)
  | letters => exact fun c hc => h c (List.mem_append_left more hc)
  | oneOf words =>
      rcases h with ⟨word, hword, hbegins⟩
      exact ⟨word, hword, (List.prefix_append letters more).trans hbegins⟩

private theorem fits_singleton : shape.Fits [c] ↔ shape.admits "" c = true := by
  cases shape <;> simp [Fits, admits]

/-- The shape is fitted by one more character exactly if it admits the character. -/
theorem fits_concat :
    shape.Fits (letters ++ [c]) ↔ shape.Fits letters ∧ shape.admits (.ofList letters) c = true := by
  refine ⟨fun h => ⟨h.of_append, ?_⟩, ?_⟩
  · cases shape with
    | digits => exact h c (List.mem_append_right letters List.mem_cons_self)
    | letters => exact h c (List.mem_append_right letters List.mem_cons_self)
    | oneOf words => simpa [Fits, admits] using h
  · rintro ⟨hfits, hadmits⟩
    cases shape with
    | digits =>
        intro d hd
        rcases List.mem_append.mp hd with hd | hd
        · exact hfits d hd
        · rwa [List.mem_singleton.mp hd]
    | letters =>
        intro d hd
        rcases List.mem_append.mp hd with hd | hd
        · exact hfits d hd
        · rwa [List.mem_singleton.mp hd]
    | oneOf words => simpa [Fits, admits] using hadmits

/-- The characters are a whole spelling of a shape that they fit: for a list of words,
they are one of the words. -/
def Spans (shape : Shape) (letters : List Char) : Prop :=
  ∀ words, shape = oneOf words → .ofList letters ∈ words

/-- Letters complete a shape exactly if they are a whole spelling of it. -/
theorem completes_iff (h : letters ≠ []) :
    shape.completes (.ofList letters) = true ↔ shape.Spans letters := by
  cases shape <;> simp [completes, Spans, h]

end Shape

namespace Lexicon

variable {lexicon : Lexicon} {run : Text.Run} {result : Except TokenFault Token}

/-! ## Rules that are left -/

/-- The rules that the characters fit, in the order of the lexicon. -/
def live (lexicon : Lexicon) (letters : List Char) : List Rule :=
  lexicon.filter (·.shape.Fits letters)

/-- The rules that are left are those that the letters fit. -/
theorem mem_live {rule : Rule} :
    rule ∈ lexicon.live letters ↔ rule ∈ lexicon ∧ rule.shape.Fits letters := by
  simp [live]

/-- Where no rule is left, none is left later on. -/
theorem live_append_eq_nil (h : lexicon.live letters = []) :
    lexicon.live (letters ++ more) = [] := by
  rw [List.eq_nil_iff_forall_not_mem] at h ⊢
  intro rule hrule
  rcases mem_live.mp hrule with ⟨hmem, hfits⟩
  exact h rule (mem_live.mpr ⟨hmem, hfits.of_append⟩)

/-- Where rules are left for some letters, they are for every beginning of these. -/
theorem live_ne_nil_of_beginning (hbegins : letters <+: more) (h : lexicon.live more ≠ []) :
    lexicon.live letters ≠ [] := by
  rcases hbegins with ⟨rest, rfl⟩
  exact mt live_append_eq_nil h

/-- The rules that are left after the first character are those that admit it. -/
theorem live_singleton :
    lexicon.live [c] = lexicon.filter (·.shape.admits "" c) := by
  simp only [live, Shape.fits_singleton, Bool.decide_eq_true]

/-- The rules that are left after one more character are those that admit it. -/
theorem live_concat : lexicon.live (letters ++ [c]) =
    (lexicon.live letters).filter (·.shape.admits (.ofList letters) c) := by
  rw [live, live, List.filter_filter]
  refine List.filter_congr fun rule _ => ?_
  rw [Bool.eq_iff_iff]
  simp [Shape.fits_concat, and_comm]

/-! ## Verdicts -/

/-- What a lexicon has to say about a run. -/
inductive Verdict (lexicon : Lexicon) (run : Text.Run) : Except TokenFault Token → Prop where
  /-- `c` is the first character after which no rule is left. -/
  | noMatch {before after : List Char} {c : Char} (hsplit : run.letters = before ++ c :: after)
      (hbefore : ∀ shorter, shorter <+: before → shorter ≠ [] → lexicon.live shorter ≠ [])
      (hdead : lexicon.live (before ++ [c]) = []) :
      Verdict lexicon run (.error (.noMatch (run.start.after before) c (.ofList before)))
  /-- Several rules are left for the whole run. -/
  | ambiguous (hlive : 2 ≤ (lexicon.live run.letters).length) :
      Verdict lexicon run (.error
        (.ambiguous run.start run.spelling ((lexicon.live run.letters).map (·.kind))))
  /-- One rule is left, and the run is only a beginning of one of its words. -/
  | unterminated {rule : Rule} (hlive : lexicon.live run.letters = [rule])
      (hspans : ¬ rule.shape.Spans run.letters) :
      Verdict lexicon run (.error (.unterminated run.start run.spelling rule.kind))
  /-- One rule is left, and the run is a spelling of its shape. -/
  | token {rule : Rule} (hlive : lexicon.live run.letters = [rule])
      (hspans : rule.shape.Spans run.letters) :
      Verdict lexicon run (.ok ⟨rule.kind, run.spelling, run.start⟩)

/-- The first of the characters after which no rule is left, with those before it; the
characters follow `before`. -/
def misfit? (lexicon : Lexicon) (before : List Char) : List Char → Option (List Char × Char)
  | [] => none
  | c :: rest =>
    if lexicon.live (before ++ [c]) = [] then some (before, c)
    else lexicon.misfit? (before ++ [c]) rest

/-- The verdict of a lexicon on a run. -/
def judge (lexicon : Lexicon) (run : Text.Run) : Except TokenFault Token :=
  match lexicon.misfit? [] run.letters with
  | some (before, c) => .error (.noMatch (run.start.after before) c (.ofList before))
  | none =>
    match lexicon.live run.letters with
    | [rule] =>
      if rule.shape.completes run.spelling then .ok ⟨rule.kind, run.spelling, run.start⟩
      else .error (.unterminated run.start run.spelling rule.kind)
    | rules => .error (.ambiguous run.start run.spelling (rules.map (·.kind)))

/-! ## The two definitions agree -/

private theorem misfit?_eq_some {mid after : List Char}
    (hmid : ∀ shorter, shorter <+: mid → shorter ≠ [] → lexicon.live (before ++ shorter) ≠ [])
    (hdead : lexicon.live (before ++ mid ++ [c]) = []) :
    lexicon.misfit? before (mid ++ c :: after) = some (before ++ mid, c) := by
  induction mid generalizing before with
  | nil =>
      rw [List.append_nil] at hdead ⊢
      rw [List.nil_append, misfit?, if_pos hdead]
  | cons d mid ih =>
      have hlive : lexicon.live (before ++ [d]) ≠ [] :=
        hmid [d] (List.prefix_append [d] mid) (List.cons_ne_nil d [])
      rw [List.cons_append, misfit?, if_neg hlive, ih, List.append_assoc, List.singleton_append]
      · intro shorter hshorter _
        rw [List.append_assoc, List.singleton_append]
        exact hmid (d :: shorter) (List.prefix_cons_inj d |>.mpr hshorter) (List.cons_ne_nil d _)
      · rwa [List.append_assoc before, List.singleton_append]

private theorem misfit?_eq_none (h : lexicon.live (before ++ letters) ≠ []) :
    lexicon.misfit? before letters = none := by
  induction letters generalizing before with
  | nil => rfl
  | cons c rest ih =>
      rw [List.append_cons] at h
      rw [misfit?, if_neg (live_ne_nil_of_beginning (List.prefix_append _ rest) h), ih h]

/-- Where no rule is left for some characters, one of them is the first after which this
is so. -/
theorem exists_misfit (hne : letters ≠ []) (hdead : lexicon.live letters = []) :
    ∃ before c after, letters = before ++ c :: after ∧
      (∀ shorter, shorter <+: before → shorter ≠ [] → lexicon.live shorter ≠ []) ∧
      lexicon.live (before ++ [c]) = [] := by
  -- From the end: either no rule is left earlier already, or the last character is the first.
  induction letters using List.reverseRecOn with
  | nil => exact absurd rfl hne
  | append_singleton init c ih =>
      by_cases hearlier : init ≠ [] ∧ lexicon.live init = []
      · rcases ih hearlier.1 hearlier.2 with ⟨before, d, after, rfl, hbefore, hmisfit⟩
        exact ⟨before, d, after ++ [c], by simp, hbefore, hmisfit⟩
      · refine ⟨init, c, [], rfl, fun shorter hshorter hshort => ?_, hdead⟩
        have hinit : init ≠ [] := fun hnil => hshort (List.prefix_nil.mp (hnil ▸ hshorter))
        exact live_ne_nil_of_beginning hshorter fun hnil => hearlier ⟨hinit, hnil⟩

/-- A run is judged by its verdict. -/
theorem Verdict.judge_eq (h : lexicon.Verdict run result) : lexicon.judge run = result := by
  cases h with
  | @noMatch before after c hsplit hbefore hdead =>
      have hmisfit : lexicon.misfit? [] run.letters = some (before, c) := by
        rw [hsplit]
        exact misfit?_eq_some hbefore hdead
      simp only [judge, hmisfit]
  | ambiguous hlive =>
      have hnone : lexicon.misfit? [] run.letters = none :=
        misfit?_eq_none (List.ne_nil_of_length_pos (by rw [List.nil_append]; omega))
      rw [judge, hnone]
      rcases hrules : lexicon.live run.letters with _ | ⟨rule, _ | ⟨rival, rules⟩⟩
      · simp [hrules] at hlive
      · simp [hrules] at hlive
      · rfl
  | unterminated hlive hspans =>
      have hnone : lexicon.misfit? [] run.letters = none := misfit?_eq_none (by simp [hlive])
      simp only [judge, hnone, hlive]
      exact if_neg (mt (Shape.completes_iff run.letters_ne_nil).mp hspans)
  | token hlive hspans =>
      have hnone : lexicon.misfit? [] run.letters = none := misfit?_eq_none (by simp [hlive])
      simp only [judge, hnone, hlive]
      exact if_pos ((Shape.completes_iff run.letters_ne_nil).mpr hspans)

/-- Every run has a verdict. -/
theorem exists_verdict (lexicon : Lexicon) (run : Text.Run) :
    ∃ result, lexicon.Verdict run result := by
  rcases hrules : lexicon.live run.letters with _ | ⟨rule, _ | ⟨rival, rules⟩⟩
  · rcases exists_misfit run.letters_ne_nil hrules with
      ⟨before, c, after, hsplit, hbefore, hdead⟩
    exact ⟨_, .noMatch hsplit hbefore hdead⟩
  · by_cases hspans : rule.shape.Spans run.letters
    · exact ⟨_, .token hrules hspans⟩
    · exact ⟨_, .unterminated hrules hspans⟩
  · exact ⟨_, .ambiguous (by simp [hrules])⟩

/-- A run has exactly one verdict, the one that is computed. -/
theorem verdict_iff : lexicon.Verdict run result ↔ lexicon.judge run = result := by
  refine ⟨Verdict.judge_eq, ?_⟩
  rintro rfl
  rcases lexicon.exists_verdict run with ⟨result, hverdict⟩
  rwa [hverdict.judge_eq]

end Lexicon

end BitwiseCircuit
