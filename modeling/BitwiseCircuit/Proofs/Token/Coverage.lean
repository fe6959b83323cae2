import BitwiseCircuit.Proofs.Text.Coverage
import BitwiseCircuit.Proofs.Text.Places
import BitwiseCircuit.Proofs.Token.Scanning

/-!
# Tokens cover a text

Nothing of a text gets lost between its tokens but blanks and comments, and the place of a token
is where its spelling is found.

Main results:

- Definition `Token.Cover` says what tokens that cover a text are like, and definition
  `TokenFault.PointsInto` where a fault points.
- Theorem `Lexicon.tokenize_covers`: the tokens of a text cover it, and the fault of a text that
  has none points into its first run that is no token.
-/

namespace BitwiseCircuit

variable {lexicon : Lexicon} {text : String} {tokens : List Token} {fault : TokenFault}
  {run : Text.Run} {before : List Char}

/-! ## What is stated about tokens and faults -/

/-- The tokens are spelled in the text one after the other, each at its place, and leave out
nothing but blanks and comments. -/
structure Token.Cover (tokens : List Token) (text : String) : Prop where
  increasing : tokens.Pairwise (·.position < ·.position)
  spelled : ∀ token ∈ tokens, ∃ before after,
    text.toList = before ++ token.spelling.toList ++ after ∧
      token.position = Text.placeAfter before
  solid : ∀ token ∈ tokens, ∀ c ∈ token.spelling.toList, Text.isBlank c = false
  stripped : tokens.flatMap (·.spelling.toList) = Text.stripped text
  existsUnique : ∀ read c rest, text.toList = read ++ c :: rest → ¬ Text.Skipped read c →
    ∃! token, token ∈ tokens ∧
      Text.BelongsTo read c rest token.position token.spelling.toList
  skipped : ∀ read c rest, text.toList = read ++ c :: rest → Text.Skipped read c →
    ∀ token ∈ tokens, ¬ Text.BelongsTo read c rest token.position token.spelling.toList

/-- The fault points at the first of the characters `letters`, which follow the characters
`before` of a text, or, if there is one that no rule admits, at that one. -/
def TokenFault.PointsInto (fault : TokenFault) (before letters : List Char) : Prop :=
  match fault with
  | noMatch position found spelling => ∃ rest, letters = spelling.toList ++ found :: rest ∧
      position = Text.placeAfter (before ++ spelling.toList)
  | ambiguous position spelling _ | unterminated position spelling _ =>
      spelling.toList = letters ∧ position = Text.placeAfter before

namespace Lexicon

/-! ## From runs to tokens -/

/-- The tokens of a text have the places and the characters of its runs. -/
theorem map_of_tokenize (h : lexicon.tokenize text = .ok tokens) :
    tokens.map (fun token => (token.position, token.spelling.toList)) =
      (Text.runs text).map fun run => (run.start, run.letters) := by
  rw [tokenize_eq_mapM_judge, mapM_eq_ok_iff] at h
  generalize Text.runs text = runs at h
  induction h with
  | nil => rfl
  | @cons run token runs tokens hverdict _ ih =>
      cases verdict_iff.mpr hverdict with
      | token hlive hspans =>
          rw [List.map_cons, List.map_cons, ih, Text.Run.spelling, String.toList_ofList]

private theorem exists_run_of_mem (h : lexicon.tokenize text = .ok tokens) {token : Token}
    (htoken : token ∈ tokens) : ∃ run ∈ Text.runs text,
      run.start = token.position ∧ run.letters = token.spelling.toList := by
  have hmem :=
    List.mem_map_of_mem (f := fun token => (token.position, token.spelling.toList)) htoken
  rw [map_of_tokenize h] at hmem
  rcases List.mem_map.mp hmem with ⟨run, hrun, hkey⟩
  exact ⟨run, hrun, congrArg Prod.fst hkey, congrArg Prod.snd hkey⟩

private theorem exists_token_of_mem (h : lexicon.tokenize text = .ok tokens)
    (hrun : run ∈ Text.runs text) :
    ∃ token ∈ tokens, token.position = run.start ∧ token.spelling.toList = run.letters := by
  have hmem := List.mem_map_of_mem (f := fun run : Text.Run => (run.start, run.letters)) hrun
  rw [← map_of_tokenize h] at hmem
  rcases List.mem_map.mp hmem with ⟨token, htoken, hkey⟩
  exact ⟨token, htoken, congrArg Prod.fst hkey, congrArg Prod.snd hkey⟩

/-- Tokens do not overlap. -/
theorem pairwise_of_tokenize (h : lexicon.tokenize text = .ok tokens) :
    tokens.Pairwise fun token later =>
      token.position.after token.spelling.toList ≤ later.position := by
  have hruns := (Text.laid_runs text).pairwise
  rw [← List.pairwise_map (f := fun run : Text.Run => (run.start, run.letters))
    (R := fun p q => p.1.after p.2 ≤ q.1), ← map_of_tokenize h, List.pairwise_map] at hruns
  exact hruns

/-- No token is empty. -/
theorem spelling_ne_nil_of_tokenize (h : lexicon.tokenize text = .ok tokens) :
    ∀ token ∈ tokens, token.spelling.toList ≠ [] := by
  intro token htoken
  rcases exists_run_of_mem h htoken with ⟨run, -, -, hletters⟩
  exact hletters ▸ run.letters_ne_nil

/-- The places of tokens increase. -/
theorem position_lt_of_tokenize (h : lexicon.tokenize text = .ok tokens) :
    tokens.Pairwise (·.position < ·.position) :=
  (pairwise_of_tokenize h).imp_of_mem fun htoken _ hle =>
    Position.lt_of_lt_of_le (Position.lt_after _ (spelling_ne_nil_of_tokenize h _ htoken)) hle

private theorem exists_mem_belongsTo_iff (h : lexicon.tokenize text = .ok tokens)
    {read rest : List Char} {c : Char} (hsplit : text.toList = read ++ c :: rest) :
    (∃ token ∈ tokens, Text.BelongsTo read c rest token.position token.spelling.toList) ↔
      ¬ Text.Skipped read c := by
  have hruns := (Text.laid_runs text).exists_belongsTo_iff hsplit
  rw [List.nil_append] at hruns
  rw [← hruns]
  constructor
  · rintro ⟨token, htoken, hbelongs⟩
    rcases exists_run_of_mem h htoken with ⟨run, hrun, hstart, hletters⟩
    exact ⟨run, hrun, hstart ▸ hletters ▸ hbelongs⟩
  · rintro ⟨run, hrun, hbelongs⟩
    rcases exists_token_of_mem h hrun with ⟨token, htoken, hposition, hspelling⟩
    exact ⟨token, htoken, hposition ▸ hspelling ▸ hbelongs⟩

/-- The tokens of a text cover it. -/
theorem cover_of_tokenize (h : lexicon.tokenize text = .ok tokens) : Token.Cover tokens text where
  increasing := position_lt_of_tokenize h
  spelled := by
    intro token htoken
    rcases exists_run_of_mem h htoken with ⟨run, hrun, hstart, hletters⟩
    rcases Text.exists_of_mem_runsFrom hrun with ⟨before, after, hsplit, hplace⟩
    rw [hstart, ← Text.placeAfter_eq] at hplace
    exact ⟨before, after, hletters ▸ hsplit, hplace⟩
  solid := by
    intro token htoken
    rcases exists_run_of_mem h htoken with ⟨run, -, -, hletters⟩
    exact hletters ▸ run.not_isBlank
  stripped := by
    rw [Text.stripped, ← (Text.laid_runs text).flatMap_letters]
    have hflat := congrArg (List.flatMap Prod.snd) (map_of_tokenize h)
    rwa [List.flatMap_map, List.flatMap_map] at hflat
  existsUnique := by
    intro read c rest hsplit hkept
    rcases (exists_mem_belongsTo_iff h hsplit).mpr hkept with ⟨token, htoken, hbelongs⟩
    refine ⟨token, ⟨htoken, hbelongs⟩, fun other hother => ?_⟩
    exact Text.eq_of_belongsTo (pairwise_of_tokenize h) hother.1 htoken hother.2 hbelongs
  skipped := by
    intro read c rest hsplit hskip token htoken hbelongs
    exact (exists_mem_belongsTo_iff h hsplit).mp ⟨token, htoken, hbelongs⟩ hskip

/-! ## Faults -/

/-- The fault of a run points into it. -/
theorem Verdict.pointsInto (h : lexicon.Verdict run (.error fault))
    (hstart : run.start = Text.placeAfter before) : fault.PointsInto before run.letters := by
  cases h with
  | @noMatch shorter after c hsplit _ _ =>
      refine ⟨after, ?_, ?_⟩
      · rwa [String.toList_ofList]
      · rw [String.toList_ofList, hstart, Text.placeAfter_append]
  | ambiguous hlive => exact ⟨String.toList_ofList, hstart⟩
  | unterminated hlive hspans => exact ⟨String.toList_ofList, hstart⟩

/-- The tokens of a text are spelled in it one after the other, each at its place, and every
character that is neither blank nor in a comment belongs to exactly one of them.  The fault of a
text without tokens points into its first run that is no token: at the character that no rule
admits, or at the first character of the run. -/
theorem tokenize_covers (lexicon : Lexicon) (text : String) :
    (∀ tokens, lexicon.tokenize text = .ok tokens → Token.Cover tokens text) ∧
    ∀ fault, lexicon.tokenize text = .error fault →
      ∃ earlier run later before after, Text.runs text = earlier ++ run :: later ∧
        (∀ other ∈ earlier, ∃ token, lexicon.Verdict other (.ok token)) ∧
        lexicon.Verdict run (.error fault) ∧
        text.toList = before ++ run.letters ++ after ∧ run.start = Text.placeAfter before ∧
        fault.PointsInto before run.letters := by
  refine ⟨fun tokens h => cover_of_tokenize h, fun fault h => ?_⟩
  rw [tokenize_eq_mapM_judge, mapM_eq_error_iff] at h
  rcases h with ⟨earlier, run, later, hruns, hearlier, hrun⟩
  have hmem : run ∈ Text.runs text := by simp [hruns]
  rcases Text.exists_of_mem_runsFrom hmem with ⟨before, after, hsplit, hstart⟩
  rw [← Text.placeAfter_eq] at hstart
  have hverdict : lexicon.Verdict run (.error fault) := verdict_iff.mpr hrun
  refine ⟨earlier, run, later, before, after, hruns, fun other hother => ?_, hverdict, hsplit,
    hstart, hverdict.pointsInto hstart⟩
  rcases hearlier other hother with ⟨token, htoken⟩
  exact ⟨token, verdict_iff.mpr htoken⟩

/-- A comment separates tokens and belongs to none; a digit after letters is reported where it
stands. -/
theorem comment_covers :
    standard.tokenize "7 # x\n-> ab" =
      .ok [⟨.number, "7", ⟨1, 1⟩⟩, ⟨.arrow, "->", ⟨2, 1⟩⟩, ⟨.wire, "ab", ⟨2, 4⟩⟩] ∧
    Token.Cover [⟨.number, "7", ⟨1, 1⟩⟩, ⟨.arrow, "->", ⟨2, 1⟩⟩, ⟨.wire, "ab", ⟨2, 4⟩⟩]
      "7 # x\n-> ab" ∧
    standard.tokenize "7 ->\n ax8" = .error (.noMatch ⟨2, 4⟩ '8' "ax") ∧
    ∃ before letters after, "7 ->\n ax8".toList = before ++ letters ++ after ∧
      (TokenFault.noMatch ⟨2, 4⟩ '8' "ax").PointsInto before letters := by
  have hok : standard.tokenize "7 # x\n-> ab" =
      .ok [⟨.number, "7", ⟨1, 1⟩⟩, ⟨.arrow, "->", ⟨2, 1⟩⟩, ⟨.wire, "ab", ⟨2, 4⟩⟩] := by
    decide +kernel
  have herror : standard.tokenize "7 ->\n ax8" = .error (.noMatch ⟨2, 4⟩ '8' "ax") := by
    decide +kernel
  refine ⟨hok, (tokenize_covers standard _).1 _ hok, herror, ?_⟩
  rcases (tokenize_covers standard _).2 _ herror with
    ⟨_, run, _, before, after, -, -, -, hsplit, -, hpoints⟩
  exact ⟨before, run.letters, after, hsplit, hpoints⟩

end Lexicon

end BitwiseCircuit
