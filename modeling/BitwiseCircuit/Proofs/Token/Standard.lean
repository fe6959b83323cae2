import BitwiseCircuit.Proofs.Schematic.ViablePrefix
import BitwiseCircuit.Proofs.Token.Scanning

/-!
# The tokens of the circuit language

The rules of the standard lexicon start with different characters, so that a run never fits
two of them, and its words are the keywords of the operators.

Main results:

- Definition `TokenKind.Spells` is the language of each kind of token.
- Theorem `Lexicon.standard_startsApart`: the first character of a run decides between the
  rules; Theorem `Lexicon.StartsApart.length_live_le_one`: where rules start with different
  characters, one of them at most is left for a run.
- Theorem `Lexicon.standard_verdict_ok_iff`: a run is a token exactly if it is in the
  language of its kind.
- Theorem `tokenize_eq_ok_iff`: the tokens of a text; Theorem `tokenize_recognises`: the
  texts that are lists of tokens, what the tokens are, and which faults the other texts have.
-/

namespace BitwiseCircuit

/-! ## The language of a kind -/

/-- The digits are the characters from `0` to `9`. -/
theorem isDigit_iff {c : Char} : c.isDigit = true ↔ '0' ≤ c ∧ c ≤ '9' := by
  change (decide ('0'.val ≤ c.val) && decide (c.val ≤ '9'.val)) = true ↔ _
  rw [Bool.and_eq_true, decide_eq_true_eq, decide_eq_true_eq, Char.le_def, Char.le_def]

/-- The small letters are the characters from `a` to `z`. -/
theorem isLower_iff {c : Char} : c.isLower = true ↔ 'a' ≤ c ∧ c ≤ 'z' := by
  change (decide ('a'.val ≤ c.val) && decide (c.val ≤ 'z'.val)) = true ↔ _
  rw [Bool.and_eq_true, decide_eq_true_eq, decide_eq_true_eq, Char.le_def, Char.le_def]

namespace TokenKind

/-- The words of a kind that is spelled by certain words only. -/
def words : TokenKind → List String
  | number | wire => []
  | unaryKeyword => ["NOT"]
  | binaryKeyword => ["AND", "OR"]
  | shiftKeyword => ["LSHIFT", "RSHIFT"]
  | arrow => ["->"]

/-- The spelling is in the language of the kind: some digits, some small letters, or one of
the words of the kind. -/
def Spells (kind : TokenKind) (spelling : String) : Prop :=
  match kind with
  | number => spelling ≠ "" ∧ ∀ c ∈ spelling.toList, '0' ≤ c ∧ c ≤ '9'
  | wire => spelling ≠ "" ∧ ∀ c ∈ spelling.toList, 'a' ≤ c ∧ c ≤ 'z'
  | kind => spelling ∈ kind.words

/-- The kind of the spellings that start with the character. -/
def ofInitial? (c : Char) : Option TokenKind :=
  if c.isDigit then some .number
  else if c.isLower then some .wire
  else match c with
    | 'N' => some .unaryKeyword
    | 'A' | 'O' => some .binaryKeyword
    | 'L' | 'R' => some .shiftKeyword
    | '-' => some .arrow
    | _ => none

end TokenKind

/-- Keywords are the words that spell operators. -/
theorem Token.spellsOperator_of_spells {token : Token}
    (h : token.kind.Spells token.spelling) : token.SpellsOperator := by
  rcases token with ⟨kind, spelling, position⟩
  constructor
  · rintro rfl
    obtain rfl : spelling = "NOT" := by simpa [TokenKind.Spells, TokenKind.words] using h
    exact ⟨.not, rfl, rfl⟩
  · rintro rfl
    have hwords : spelling = "AND" ∨ spelling = "OR" := by
      simpa [TokenKind.Spells, TokenKind.words] using h
    rcases hwords with rfl | rfl
    · exact ⟨.and, rfl, rfl⟩
    · exact ⟨.or, rfl, rfl⟩
  · rintro rfl
    have hwords : spelling = "LSHIFT" ∨ spelling = "RSHIFT" := by
      simpa [TokenKind.Spells, TokenKind.words] using h
    rcases hwords with rfl | rfl
    · exact ⟨.left, rfl, rfl⟩
    · exact ⟨.right, rfl, rfl⟩

/-! ## Rules that start apart -/

namespace Lexicon

variable {lexicon : Lexicon} {letters : List Char} {rule : Rule} {c : Char}

/-- No character starts something that fits two of the rules. -/
def StartsApart (lexicon : Lexicon) : Prop :=
  lexicon.Pairwise fun rule rule' => ∀ c, rule.shape.Fits [c] → ¬ rule'.shape.Fits [c]

/-- Where rules start apart, one rule at most is left for some characters. -/
theorem StartsApart.length_live_le_one (h : lexicon.StartsApart) (hne : letters ≠ []) :
    (lexicon.live letters).length ≤ 1 := by
  have hapart : (lexicon.live letters).Pairwise
      fun rule rule' => ∀ c, rule.shape.Fits [c] → ¬ rule'.shape.Fits [c] := h.filter _
  rcases letters with _ | ⟨c, letters⟩
  · exact absurd rfl hne
  · -- All rules that are left admit the first character, so no two of them are.
    have hfirst : ∀ rule ∈ lexicon.live (c :: letters), rule.shape.Fits [c] := by
      intro rule hrule
      have hfits : rule.shape.Fits ([c] ++ letters) := (mem_live.mp hrule).2
      exact hfits.of_append
    rcases hrules : lexicon.live (c :: letters) with _ | ⟨rule, _ | ⟨rival, rules⟩⟩
    · exact Nat.zero_le 1
    · exact Nat.le_refl 1
    · rw [hrules] at hapart hfirst
      have hrival := (List.pairwise_cons.mp hapart).1 rival List.mem_cons_self
      exact absurd (hfirst rival (by simp)) (hrival c (hfirst rule (by simp)))

/-- Where rules start apart, a rule that is left is the only one. -/
theorem StartsApart.live_eq_singleton (h : lexicon.StartsApart) (hne : letters ≠ [])
    (hrule : rule ∈ lexicon) (hfits : rule.shape.Fits letters) :
    lexicon.live letters = [rule] := by
  have hmem : rule ∈ lexicon.live letters := mem_live.mpr ⟨hrule, hfits⟩
  have hlength := h.length_live_le_one hne
  rcases hrules : lexicon.live letters with _ | ⟨only, _ | ⟨rival, rules⟩⟩
  · simp [hrules] at hmem
  · rw [hrules] at hmem
    rw [List.mem_singleton.mp hmem]
  · simp [hrules] at hlength

/-- What fits a rule of the standard lexicon starts as the spellings of its kind do. -/
theorem ofInitial?_eq_some (hrule : rule ∈ standard) (hfits : rule.shape.Fits [c]) :
    TokenKind.ofInitial? c = some rule.kind := by
  simp only [standard, List.mem_cons, List.not_mem_nil, or_false] at hrule
  rcases hrule with rfl | rfl | rfl | rfl | rfl | rfl
  · have hdigit : c.isDigit = true := hfits c List.mem_cons_self
    simp [TokenKind.ofInitial?, hdigit]
  · have hlower : c.isLower = true := hfits c List.mem_cons_self
    have hdigit : ¬ c.isDigit = true := by
      intro hdigit
      have hle : 'a' ≤ '9' := Char.le_trans (isLower_iff.mp hlower).1 (isDigit_iff.mp hdigit).2
      exact absurd hle (by decide)
    simp [TokenKind.ofInitial?, hdigit, hlower]
  · obtain rfl : c = 'N' := by simpa [Shape.Fits] using hfits
    rfl
  · have hc : c = 'A' ∨ c = 'O' := by simpa [Shape.Fits] using hfits
    rcases hc with rfl | rfl <;> rfl
  · have hc : c = 'L' ∨ c = 'R' := by simpa [Shape.Fits] using hfits
    rcases hc with rfl | rfl <;> rfl
  · obtain rfl : c = '-' := by simpa [Shape.Fits] using hfits
    rfl

/-- The rules of the standard lexicon start apart. -/
theorem standard_startsApart : standard.StartsApart := by
  have hkinds : standard.Pairwise fun rule rule' => rule.kind ≠ rule'.kind := by decide
  refine hkinds.imp_of_mem fun hrule hrule' hne c hfits hfits' => hne ?_
  have hsame := (ofInitial?_eq_some hrule hfits).symm.trans (ofInitial?_eq_some hrule' hfits')
  exact Option.some.inj hsame

end Lexicon

/-! ## Verdicts of the standard lexicon -/

/-- A word of a list fits it. -/
theorem Shape.fits_of_mem {words : List String} {letters : List Char}
    (h : .ofList letters ∈ words) : (oneOf words).Fits letters :=
  ⟨.ofList letters, h, by simp⟩

namespace Lexicon

variable {run : Text.Run} {token : Token} {letters : List Char} {rule : Rule}

/-- What a rule of the standard lexicon recognises is the language of its kind. -/
theorem spells_iff_of_mem_standard (hrule : rule ∈ standard) (hne : letters ≠ []) :
    rule.kind.Spells (.ofList letters) ↔ rule.shape.Fits letters ∧ rule.shape.Spans letters := by
  simp only [standard, List.mem_cons, List.not_mem_nil, or_false] at hrule
  have hwords : ∀ words : List String, .ofList letters ∈ words ↔
      (Shape.oneOf words).Fits letters ∧ (Shape.oneOf words).Spans letters := by
    refine fun words => ⟨fun h => ⟨Shape.fits_of_mem h, ?_⟩, fun h => h.2 words rfl⟩
    intro words' heq
    rwa [← Shape.oneOf.inj heq]
  rcases hrule with rfl | rfl | rfl | rfl | rfl | rfl
  · simp [TokenKind.Spells, Shape.Fits, Shape.Spans, hne, isDigit_iff]
  · simp [TokenKind.Spells, Shape.Fits, Shape.Spans, hne, isLower_iff]
  all_goals exact hwords _

/-- Each kind has a rule in the standard lexicon. -/
theorem exists_mem_standard (kind : TokenKind) : ∃ rule ∈ standard, rule.kind = kind := by
  cases kind <;> simp [standard]

/-- A run is a token exactly if it is in the language of its kind. -/
theorem standard_verdict_ok_iff : standard.Verdict run (.ok token) ↔
    token.kind.Spells run.spelling ∧ token.spelling = run.spelling ∧
      token.position = run.start := by
  constructor
  · intro h
    cases h with
    | @token rule hlive hspans =>
        have hrule : rule ∈ standard.live run.letters := hlive ▸ List.mem_singleton_self rule
        rcases mem_live.mp hrule with ⟨hmem, hfits⟩
        exact ⟨(spells_iff_of_mem_standard hmem run.letters_ne_nil).mpr ⟨hfits, hspans⟩, rfl, rfl⟩
  · rcases token with ⟨kind, spelling, position⟩
    rintro ⟨hspells, rfl, rfl⟩
    rcases exists_mem_standard kind with ⟨rule, hrule, rfl⟩
    rcases (spells_iff_of_mem_standard hrule run.letters_ne_nil).mp hspells with ⟨hfits, hspans⟩
    exact .token (standard_startsApart.live_eq_singleton run.letters_ne_nil hrule hfits) hspans

/-- A run is in the language of one kind at most. -/
theorem eq_of_spells {kind kind' : TokenKind} (h : kind.Spells run.spelling)
    (h' : kind'.Spells run.spelling) : kind = kind' := by
  have hverdict : standard.Verdict run (.ok ⟨kind, run.spelling, run.start⟩) :=
    standard_verdict_ok_iff.mpr ⟨h, rfl, rfl⟩
  have hverdict' : standard.Verdict run (.ok ⟨kind', run.spelling, run.start⟩) :=
    standard_verdict_ok_iff.mpr ⟨h', rfl, rfl⟩
  have hsame := (verdict_iff.mp hverdict).symm.trans (verdict_iff.mp hverdict')
  cases hsame
  rfl

/-- To the standard lexicon no run is ambiguous. -/
theorem not_standard_verdict_ambiguous {position : Position} {spelling : String}
    {kinds : List TokenKind} :
    ¬ standard.Verdict run (.error (.ambiguous position spelling kinds)) := by
  intro h
  cases h with
  | ambiguous hlive =>
      have hlength := standard_startsApart.length_live_le_one run.letters_ne_nil
      omega

private theorem words_eq_of_mem_standard {words : List String} (hrule : rule ∈ standard)
    (hshape : rule.shape = .oneOf words) : words = rule.kind.words := by
  simp only [standard, List.mem_cons, List.not_mem_nil, or_false] at hrule
  rcases hrule with rfl | rfl | rfl | rfl | rfl | rfl <;> cases hshape <;> rfl

/-- A run that lacks its end is a beginning of a word, but not the whole word. -/
theorem exists_word_of_unterminated {position : Position} {spelling : String} {kind : TokenKind}
    (h : standard.Verdict run (.error (.unterminated position spelling kind))) :
    spelling ≠ "" ∧ ∃ word ∈ kind.words, spelling.toList <+: word.toList ∧ spelling ≠ word := by
  cases h with
  | @unterminated rule hlive hspans =>
      have hmem : rule ∈ standard.live run.letters := hlive ▸ List.mem_singleton_self rule
      rcases mem_live.mp hmem with ⟨hrule, hfits⟩
      simp only [Shape.Spans, not_forall] at hspans
      rcases hspans with ⟨words, hshape, hnot⟩
      obtain rfl := words_eq_of_mem_standard hrule hshape
      rw [hshape] at hfits
      rcases hfits with ⟨word, hword, hbegins⟩
      refine ⟨by simpa [Text.Run.spelling] using run.letters_ne_nil, word, hword, ?_, ?_⟩
      · rwa [Text.Run.spelling, String.toList_ofList]
      · rintro rfl
        exact hnot hword

end Lexicon

/-! ## Whole texts -/

variable {text : String} {tokens : List Token} {fault : TokenFault}

/-- The tokens of a text are its runs, each with the kind whose language it is in. -/
theorem tokenize_eq_ok_iff : tokenize text = .ok tokens ↔
    List.Forall₂ (fun run token => token.kind.Spells run.spelling ∧
      token.spelling = run.spelling ∧ token.position = run.start) (Text.runs text) tokens := by
  simp only [← Lexicon.standard_verdict_ok_iff, Lexicon.verdict_iff]
  rw [tokenize, Lexicon.tokenize_eq_mapM_judge, mapM_eq_ok_iff]

/-- A text is a list of tokens if each of its runs is in the language of a kind. -/
theorem exists_tokenize_eq_ok_iff : (∃ tokens, tokenize text = .ok tokens) ↔
    ∀ run ∈ Text.runs text, ∃ kind : TokenKind, kind.Spells run.spelling := by
  rw [tokenize, Lexicon.tokenize_eq_mapM_judge]
  simp only [exists_mapM_eq_ok_iff, ← Lexicon.verdict_iff, Lexicon.standard_verdict_ok_iff]
  refine forall₂_congr fun run _ => ⟨?_, ?_⟩
  · rintro ⟨token, hspells, -⟩
    exact ⟨token.kind, hspells⟩
  · rintro ⟨kind, hspells⟩
    exact ⟨⟨kind, run.spelling, run.start⟩, hspells, rfl, rfl⟩

/-- The fault of a text is that of a run. -/
theorem exists_verdict_of_tokenize_eq_error (h : tokenize text = .error fault) :
    ∃ run, Lexicon.standard.Verdict run (.error fault) := by
  rw [tokenize, Lexicon.tokenize_eq_mapM_judge, mapM_eq_error_iff] at h
  rcases h with ⟨_, run, _, _, _, hrun⟩
  exact ⟨run, Lexicon.verdict_iff.mpr hrun⟩

/-- The tokens of a text are spelled as their kinds ask for. -/
theorem spells_of_tokenize (h : tokenize text = .ok tokens) :
    ∀ token ∈ tokens, token.kind.Spells token.spelling := by
  intro token htoken
  rcases exists_of_forall₂ (tokenize_eq_ok_iff.mp h) htoken with ⟨run, _, hspells, hspelling, _⟩
  rwa [hspelling]

/-- Keywords in a text spell operators. -/
theorem spellsOperator_of_tokenize (h : tokenize text = .ok tokens) :
    ∀ token ∈ tokens, token.SpellsOperator := fun token htoken =>
  Token.spellsOperator_of_spells (spells_of_tokenize h token htoken)

/-- A text is a list of tokens exactly if each of its runs is in the language of a kind, which
is then the kind of the token; otherwise no run is ambiguous, and one that lacks its end is a
proper beginning of a word.  Where a text is a list of tokens, its keywords spell operators,
and what the grammar finds in place of some kinds is never of such a kind. -/
theorem tokenize_recognises (text : String) :
    (∀ position spelling kinds, tokenize text ≠ .error (.ambiguous position spelling kinds)) ∧
    ((∃ tokens, tokenize text = .ok tokens) ↔
      ∀ run ∈ Text.runs text, ∃ kind : TokenKind, kind.Spells run.spelling) ∧
    (∀ position spelling kind, tokenize text = .error (.unterminated position spelling kind) →
      spelling ≠ "" ∧ ∃ word ∈ kind.words, spelling.toList <+: word.toList ∧ spelling ≠ word) ∧
    ∀ tokens, tokenize text = .ok tokens →
      List.Forall₂ (fun run token => token.spelling = run.spelling ∧ token.position = run.start ∧
        ∀ kind : TokenKind, kind.Spells run.spelling ↔ kind = token.kind)
        (Text.runs text) tokens ∧
      (∀ token ∈ tokens, token.SpellsOperator) ∧
      ∀ expected found, Schematic.ofTokens tokens = .error (.unexpectedToken expected found) →
        found.kind ∉ expected := by
  refine ⟨fun position spelling kinds h => ?_, exists_tokenize_eq_ok_iff,
    fun position spelling kind h => ?_, fun tokens h => ⟨?_, spellsOperator_of_tokenize h, ?_⟩⟩
  · rcases exists_verdict_of_tokenize_eq_error h with ⟨run, hrun⟩
    exact Lexicon.not_standard_verdict_ambiguous hrun
  · rcases exists_verdict_of_tokenize_eq_error h with ⟨run, hrun⟩
    exact Lexicon.exists_word_of_unterminated hrun
  · refine (tokenize_eq_ok_iff.mp h).imp ?_
    rintro run token ⟨hspells, hspelling, hposition⟩
    refine ⟨hspelling, hposition, fun kind => ⟨fun h => Lexicon.eq_of_spells h hspells, ?_⟩⟩
    rintro rfl
    exact hspells
  · intro expected found hfault
    rcases Schematic.unexpectedToken_of_ofTokens (spellsOperator_of_tokenize h) hfault with
      ⟨_, _, _, hkind, _⟩
    exact hkind

/-- `AN` is the beginning of a keyword and unterminated; in `x AND ->` the arrow is found where a
wire is expected. -/
theorem conjunction_recognises :
    tokenize "x AN" = .error (.unterminated ⟨1, 3⟩ "AN" .binaryKeyword) ∧
    (∃ word ∈ TokenKind.binaryKeyword.words, "AN".toList <+: word.toList ∧ "AN" ≠ word) ∧
    (∃ tokens, tokenize "x AND ->" = .ok tokens ∧
      Schematic.ofTokens tokens = .error (.unexpectedToken [.wire] ⟨.arrow, "->", ⟨1, 7⟩⟩) ∧
      TokenKind.arrow ∉ [TokenKind.wire]) := by
  have hpart : tokenize "x AN" = .error (.unterminated ⟨1, 3⟩ "AN" .binaryKeyword) := by
    decide +kernel
  have hwhole : tokenize "x AND ->" = .ok Schematic.halfConjunction := by
    decide +kernel
  have hfault : Schematic.ofTokens Schematic.halfConjunction =
      .error (.unexpectedToken [.wire] ⟨.arrow, "->", ⟨1, 7⟩⟩) := rfl
  refine ⟨hpart, ((tokenize_recognises "x AN").2.2.1 _ _ _ hpart).2, _, hwhole, hfault, ?_⟩
  exact ((tokenize_recognises "x AND ->").2.2.2 _ hwhole).2.2 _ _ hfault

end BitwiseCircuit
