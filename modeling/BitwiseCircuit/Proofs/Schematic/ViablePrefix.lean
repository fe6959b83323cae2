import BitwiseCircuit.Proofs.Schematic.Spelling

/-!
# Beginnings of schematics

Tokens are read from left to right, and a fault is reported as early as it can be: as long
as none is, the tokens that were read can be continued to a schematic.  The kinds that a
fault lists are those that could have come next.

Main results:

- Definitions `Schematic.Viable` and `Schematic.MayFollow`: some tokens can be continued to
  a schematic, and a token of some kind can come next.
- Theorem `Reading.viable_iff`: tokens can be continued exactly if they are read without a
  fault.
- Theorem `Reading.mem_expected_iff`: the kinds that a prefix expects may follow, and no
  others.
- Theorem `Schematic.ofTokens_fault`: where a fault is, and what it lists.
-/

namespace BitwiseCircuit

/-! ## Sample tokens -/

namespace TokenKind

/-- A token of a kind. -/
def sample : TokenKind → Token
  | number => ⟨number, "0", .first⟩
  | wire => ⟨wire, "a", .first⟩
  | unaryKeyword => ⟨unaryKeyword, UnaryOp.not.keyword, .first⟩
  | binaryKeyword => ⟨binaryKeyword, BinaryOp.and.keyword, .first⟩
  | shiftKeyword => ⟨shiftKeyword, ShiftOp.left.keyword, .first⟩
  | arrow => ⟨arrow, "->", .first⟩

@[simp]
theorem kind_sample (kind : TokenKind) : kind.sample.kind = kind := by
  cases kind <;> rfl

/-- The sample of a keyword spells an operator. -/
theorem spellsOperator_sample (kind : TokenKind) : kind.sample.SpellsOperator := by
  cases kind <;> constructor <;> intro h <;> cases h <;> exact ⟨_, rfl, rfl⟩

end TokenKind

/-- Kinds of token that lead from a prefix of a statement to its end. -/
def StatementPrefix.completion : StatementPrefix → List TokenKind
  | start => [.number, .arrow, .wire]
  | wire _ => [.arrow, .wire]
  | unary _ => [.wire, .arrow, .wire]
  | binary .. => [.wire, .arrow, .wire]
  | shift .. => [.number, .arrow, .wire]
  | expression _ => [.arrow, .wire]
  | arrow _ => [.wire]

/-! ## Continuing what was read -/

namespace Schematic

/-- The tokens can be continued to a schematic. -/
def Viable (tokens : List Token) : Prop :=
  ∃ more schematic, ofTokens (tokens ++ more) = .ok schematic

/-- After the tokens, a token of the kind can come next on the way to a schematic. -/
def MayFollow (tokens : List Token) (kind : TokenKind) : Prop :=
  ∃ token more schematic, token.kind = kind ∧
    ofTokens (tokens ++ token :: more) = .ok schematic

end Schematic

namespace Reading

variable {tokens : List Token} {reading : Reading} {kind : TokenKind} {fault : GrammarFault}
  {token : Token}

/-- The samples of a completion complete a statement. -/
theorem foldlM_completion (reading : Reading) :
    ∃ statement, (reading.current.completion.map TokenKind.sample).foldlM step reading =
      .ok ⟨reading.statements.push statement, .start⟩ := by
  rcases reading with ⟨statements, current⟩
  cases current <;> exact ⟨_, rfl⟩

/-- Tokens can be continued to a schematic exactly if they are read without a fault. -/
theorem viable_iff :
    Schematic.Viable tokens ↔ ∃ reading, tokens.foldlM step start = .ok reading := by
  constructor
  · rintro ⟨more, schematic, h⟩
    rcases exists_of_bind_eq_ok h with ⟨_, hfold, -⟩
    rw [List.foldlM_append] at hfold
    exact (exists_of_bind_eq_ok hfold).imp fun _ hread => hread.1
  · rintro ⟨reading, h⟩
    rcases reading.foldlM_completion with ⟨statement, hcompletion⟩
    -- Completing the statement is enough: a schematic may end after any whole statement.
    refine ⟨reading.current.completion.map TokenKind.sample,
      ⟨(reading.statements.push statement).toList⟩, ?_⟩
    rw [Schematic.ofTokens, List.foldlM_append, h]
    simp only [bind, Except.bind, hcompletion]
    exact finish_eq_ok_iff.mpr ⟨rfl, by simp, rfl⟩

private theorem exists_step_of_read {progress : StatementPrefix.Progress}
    (h : reading.current.read token = .ok progress) :
    ∃ reading', reading.step token = .ok reading' := by
  rw [step, h]
  cases progress <;> exact ⟨_, rfl⟩

/-- Where a step fails, the statement that has been begun cannot go on with the token, for the same
fault. -/
theorem read_eq_error_of_step (h : reading.step token = .error fault) :
    reading.current.read token = .error fault := by
  cases hread : reading.current.read token with
  | ok progress =>
      rcases exists_step_of_read hread with ⟨reading', hstep⟩
      rw [hstep] at h
      cases h
  | error other =>
      rw [step, hread] at h
      cases h
      rfl

/-- The kinds of token that are expected next are those that may follow. -/
theorem mem_expected_iff (h : tokens.foldlM step start = .ok reading) :
    kind ∈ reading.current.expected ↔ Schematic.MayFollow tokens kind := by
  have hmore : ∀ token, (tokens ++ [token]).foldlM step start =
      (reading.step token >>= fun reading' => .ok reading') := by
    intro token
    rw [List.foldlM_append, h]
    rfl
  constructor
  · intro hkind
    rw [← kind.kind_sample] at hkind
    rcases StatementPrefix.exists_read_eq_ok kind.spellsOperator_sample hkind with
      ⟨progress, hread⟩
    rcases exists_step_of_read hread with ⟨reading', hstep⟩
    have hviable : Schematic.Viable (tokens ++ [kind.sample]) :=
      viable_iff.mpr ⟨reading', by rw [hmore, hstep]; rfl⟩
    rcases hviable with ⟨more, schematic, hschematic⟩
    rw [List.append_assoc, List.singleton_append] at hschematic
    exact ⟨kind.sample, more, schematic, kind.kind_sample, hschematic⟩
  · rintro ⟨token, more, schematic, rfl, hschematic⟩
    rw [List.append_cons] at hschematic
    rcases viable_iff.mp ⟨more, schematic, hschematic⟩ with ⟨reading', hfold⟩
    rw [hmore] at hfold
    rcases exists_of_bind_eq_ok hfold with ⟨_, hstep, -⟩
    rcases exists_of_bind_eq_ok hstep with ⟨progress, hread, -⟩
    exact StatementPrefix.kind_mem_expected hread

private theorem finish_eq_error {position : Position} (h : reading.finish position = .error fault) :
    fault = .unexpectedEnd reading.current.expected position := by
  rw [finish] at h
  split at h
  · cases h
  · cases h
    rfl

end Reading

/-! ## Faults -/

namespace Schematic

variable {tokens : List Token} {fault : GrammarFault}

/-- A fault is that of a token that cannot be read after those before it, or that of the
end. -/
theorem ofTokens_eq_error_cases (h : ofTokens tokens = .error fault) :
    (∃ before token after reading, tokens = before ++ token :: after ∧
      before.foldlM Reading.step .start = .ok reading ∧ reading.step token = .error fault) ∨
    ∃ reading, tokens.foldlM Reading.step .start = .ok reading ∧
      fault = .unexpectedEnd reading.current.expected (Token.endOf tokens) := by
  cases hfold : tokens.foldlM Reading.step .start with
  | ok reading =>
      rw [ofTokens, hfold] at h
      exact .inr ⟨reading, rfl, Reading.finish_eq_error h⟩
  | error other =>
      rw [ofTokens, hfold] at h
      cases h
      exact .inl (exists_of_foldlM_eq_error hfold)

/-- A fault in the beginning of a list of tokens is the fault of the list. -/
theorem ofTokens_append_eq_error {more : List Token}
    (h : tokens.foldlM Reading.step .start = .error fault) :
    ofTokens (tokens ++ more) = .error fault := by
  rw [ofTokens, List.foldlM_append, h]
  rfl

/-- Where keywords spell operators, a token is a fault if what stands before it can be
continued to a schematic, but not together with the token. -/
theorem unexpectedToken_of_ofTokens {expected : List TokenKind} {found : Token}
    (hkeywords : ∀ token ∈ tokens, token.SpellsOperator)
    (h : ofTokens tokens = .error (.unexpectedToken expected found)) :
    ∃ before after, tokens = before ++ found :: after ∧ found.kind ∉ expected ∧
      Viable before ∧ ¬ Viable (before ++ [found]) ∧
      (∀ kind, kind ∈ expected ↔ MayFollow before kind) ∧
      ∀ more, ofTokens (before ++ found :: more) = .error (.unexpectedToken expected found) := by
  rcases ofTokens_eq_error_cases h with
    ⟨before, token, after, reading, rfl, hbefore, hstep⟩ | ⟨reading, _, hend⟩
  · have htoken := hkeywords token (by simp)
    rcases StatementPrefix.of_read_eq_error htoken (Reading.read_eq_error_of_step hstep) with
      ⟨hkind, hfault⟩
    cases hfault
    have hfold : (before ++ [found]).foldlM Reading.step .start =
        .error (.unexpectedToken reading.current.expected found) := by
      rw [List.foldlM_append, hbefore]
      simp only [bind, Except.bind, List.foldlM_cons, hstep]
    refine ⟨before, after, rfl, hkind, Reading.viable_iff.mpr ⟨reading, hbefore⟩, ?_,
      fun kind => Reading.mem_expected_iff hbefore, fun more => ?_⟩
    · intro hviable
      rcases Reading.viable_iff.mp hviable with ⟨reading', hok⟩
      rw [hfold] at hok
      cases hok
    · rw [List.append_cons]
      exact ofTokens_append_eq_error hfold
  · cases hend

/-- Where keywords spell operators, a list of tokens ends too early only if it can be
continued to a schematic. -/
theorem unexpectedEnd_of_ofTokens {expected : List TokenKind} {position : Position}
    (hkeywords : ∀ token ∈ tokens, token.SpellsOperator)
    (h : ofTokens tokens = .error (.unexpectedEnd expected position)) :
    Viable tokens ∧ (∀ kind, kind ∈ expected ↔ MayFollow tokens kind) ∧
      position = Token.endOf tokens := by
  rcases ofTokens_eq_error_cases h with
    ⟨before, token, after, reading, rfl, hbefore, hstep⟩ | ⟨reading, hfold, hend⟩
  · have htoken := hkeywords token (by simp)
    have hfault := StatementPrefix.of_read_eq_error htoken (Reading.read_eq_error_of_step hstep)
    cases hfault.2
  · cases hend
    exact ⟨Reading.viable_iff.mpr ⟨reading, hfold⟩,
      fun kind => Reading.mem_expected_iff hfold, rfl⟩

/-- Tokens end just past the last one, as long as its columns can be counted. -/
theorem endOf_eq {last : Token} (hlast : tokens.getLast? = some last)
    (hcolumns : last.position.column + last.spelling.length < Position.columnCount) :
    Token.endOf tokens =
      ⟨last.position.line, last.position.column + last.spelling.length⟩ := by
  rw [Token.endOf, hlast, Option.map_some, Option.getD_some, Token.finish,
    Position.past_of_lt hcolumns]

/-- Where keywords spell operators and columns can be counted, a fault is found at the first
token that no schematic goes on with, whatever follows it, or at the end if there is none;
and it lists the kinds that some schematic goes on with. -/
theorem ofTokens_fault (hkeywords : ∀ token ∈ tokens, token.SpellsOperator)
    (hcolumns : ∀ token ∈ tokens,
      token.position.column + token.spelling.length < Position.columnCount) :
    (∀ expected found, ofTokens tokens = .error (.unexpectedToken expected found) →
      ∃ k, tokens[k]? = some found ∧ Viable (tokens.take k) ∧ ¬ Viable (tokens.take (k + 1)) ∧
        (∀ kind, kind ∈ expected ↔ MayFollow (tokens.take k) kind) ∧
        ∀ others, others.take (k + 1) = tokens.take (k + 1) →
          ofTokens others = .error (.unexpectedToken expected found)) ∧
    ∀ expected position, ofTokens tokens = .error (.unexpectedEnd expected position) →
      Viable tokens ∧ (∀ kind, kind ∈ expected ↔ MayFollow tokens kind) ∧
        (tokens = [] → position = ⟨1, 1⟩) ∧
        ∀ last, tokens.getLast? = some last →
          position = ⟨last.position.line, last.position.column + last.spelling.length⟩ := by
  constructor
  · intro expected found h
    rcases unexpectedToken_of_ofTokens hkeywords h with
      ⟨before, after, rfl, -, hviable, hnot, hexpected, hsame⟩
    have htake : (before ++ found :: after).take (before.length + 1) = before ++ [found] := by
      rw [List.append_cons]
      exact List.take_left' (by simp)
    refine ⟨before.length, by simp, by simpa using hviable, by rwa [htake],
      by simpa using hexpected, fun others hothers => ?_⟩
    rw [← List.take_append_drop (before.length + 1) others, hothers, htake, List.append_assoc,
      List.singleton_append]
    exact hsame _
  · intro expected position h
    rcases unexpectedEnd_of_ofTokens hkeywords h with ⟨hviable, hexpected, rfl⟩
    refine ⟨hviable, hexpected, ?_, fun last hlast => ?_⟩
    · rintro rfl
      rfl
    · exact endOf_eq hlast (hcolumns last (List.mem_of_getLast? hlast))

/-- `x AND ->`: a conjunction that lacks its second operand. -/
def halfConjunction : List Token :=
  [⟨.wire, "x", ⟨1, 1⟩⟩, ⟨.binaryKeyword, "AND", ⟨1, 3⟩⟩, ⟨.arrow, "->", ⟨1, 7⟩⟩]

private theorem halfConjunction_spellsOperator :
    ∀ token ∈ halfConjunction, token.SpellsOperator := by
  simp only [halfConjunction, List.mem_cons, List.not_mem_nil, or_false]
  rintro token (rfl | rfl | rfl)
  all_goals
    constructor <;> intro hkind <;> cases hkind
  exact ⟨.and, rfl, rfl⟩

private theorem halfConjunction_columns : ∀ token ∈ halfConjunction,
    token.position.column + token.spelling.length < Position.columnCount := by
  decide

/-- The first token that no schematic goes on with is the arrow.  Without it the tokens end too
early, and a wire would have to follow. -/
theorem halfConjunction_fault :
    (∃ k, halfConjunction[k]? = some ⟨.arrow, "->", ⟨1, 7⟩⟩ ∧
      Viable (halfConjunction.take k) ∧ ¬ Viable (halfConjunction.take (k + 1))) ∧
    ofTokens (halfConjunction.take 2) = .error (.unexpectedEnd [.wire] ⟨1, 6⟩) ∧
    Viable (halfConjunction.take 2) ∧ ¬ MayFollow (halfConjunction.take 2) .arrow := by
  have hend : ofTokens (halfConjunction.take 2) = .error (.unexpectedEnd [.wire] ⟨1, 6⟩) := rfl
  rcases (ofTokens_fault halfConjunction_spellsOperator halfConjunction_columns).1 _ _ rfl with
    ⟨k, hfound, hviable, hnot, -⟩
  have hkeywords : ∀ token ∈ halfConjunction.take 2, token.SpellsOperator :=
    fun token htoken => halfConjunction_spellsOperator token (List.mem_of_mem_take htoken)
  have hcolumns : ∀ token ∈ halfConjunction.take 2,
      token.position.column + token.spelling.length < Position.columnCount :=
    fun token htoken => halfConjunction_columns token (List.mem_of_mem_take htoken)
  rcases (ofTokens_fault hkeywords hcolumns).2 _ _ hend with ⟨hbefore, hexpected, -⟩
  refine ⟨⟨k, hfound, hviable, hnot⟩, hend, hbefore, fun harrow => ?_⟩
  simpa using (hexpected .arrow).mpr harrow

end Schematic

end BitwiseCircuit
