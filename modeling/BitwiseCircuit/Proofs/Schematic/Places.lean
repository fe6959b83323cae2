import BitwiseCircuit.Proofs.Except
import BitwiseCircuit.Schematic.Grammar

/-!
# Reading without places

Tokens, and all that is read from them, carry their places in the text along.  A reader only
copies them: forgetting the places of the tokens first comes to the same as forgetting those
of what is read.

Main results:

- Definitions `Token.unplaced`, `Statement.unplaced`, `Schematic.unplaced` and
  `GrammarFault.unplaced` forget places.
- Theorem `Reading.step_unplaced`: reading one token commutes with forgetting.
- Theorem `Schematic.ofTokens_congr`: tokens that differ in their places alone spell schematics,
  or give faults, that differ in their places alone.
-/

namespace BitwiseCircuit

/-! ## Forgetting places -/

/-- The token as if it stood at the start of the text. -/
def Token.unplaced (token : Token) : Token :=
  { token with position := .first }

/-- The mention without its place. -/
def Mention.unplaced (mention : Mention) : Mention :=
  { mention with position := .first }

/-- The literal without its place. -/
def Numeral.unplaced (numeral : Numeral) : Numeral :=
  { numeral with position := .first }

/-- The expression without the places of its names and literals. -/
def Expression.unplaced : Expression → Expression
  | literal value => literal value.unplaced
  | wire source => wire source.unplaced
  | unary op operand => unary op operand.unplaced
  | binary op left right => binary op left.unplaced right.unplaced
  | shift op operand amount => shift op operand.unplaced amount.unplaced

/-- The statement without the places of its names and literals. -/
def Statement.unplaced (statement : Statement) : Statement :=
  ⟨statement.expression.unplaced, statement.result.unplaced⟩

/-- The schematic without the places of its names and literals. -/
def Schematic.unplaced (schematic : Schematic) : Schematic :=
  ⟨schematic.statements.map Statement.unplaced⟩

/-- The fault without the place of the token found, or of the end. -/
def GrammarFault.unplaced : GrammarFault → GrammarFault
  | unexpectedToken expected found => unexpectedToken expected found.unplaced
  | unexpectedEnd expected _ => unexpectedEnd expected .first

namespace StatementPrefix

/-- The beginning of a statement without the places of its names and literals. -/
def unplaced : StatementPrefix → StatementPrefix
  | start => start
  | wire left => wire left.unplaced
  | unary op => unary op
  | binary op left => binary op left.unplaced
  | shift op operand => shift op operand.unplaced
  | expression e => expression e.unplaced
  | arrow e => arrow e.unplaced

/-- The progress without the places of its names and literals. -/
def Progress.unplaced : Progress → Progress
  | more longer => more longer.unplaced
  | whole statement => whole statement.unplaced

@[simp]
theorem expected_unplaced (before : StatementPrefix) :
    before.unplaced.expected = before.expected := by
  cases before <;> rfl

private theorem unplaced_eq_start_iff {before : StatementPrefix} :
    before.unplaced = start ↔ before = start := by
  cases before <;> simp [unplaced]

/-! ## One token -/

/-- Which operator a keyword names does not depend on where it stands. -/
theorem readKeyword_unplaced {Op : Type} {ofKeyword? : String → Option Op} {token : Token}
    {next next' : Op → StatementPrefix} (hnext : ∀ op, next' op = (next op).unplaced) :
    readKeyword ofKeyword? token.unplaced next' =
      mapBoth GrammarFault.unplaced Progress.unplaced (readKeyword ofKeyword? token next) := by
  rw [readKeyword, readKeyword]
  cases hop : ofKeyword? token.spelling with
  | none =>
      simp only [Token.unplaced, hop]
      rfl
  | some op =>
      simp only [Token.unplaced, hop, hnext]
      rfl

/-- Reading one token of a statement commutes with forgetting places. -/
theorem read_unplaced (before : StatementPrefix) (token : Token) :
    before.unplaced.read token.unplaced =
      mapBoth GrammarFault.unplaced Progress.unplaced (before.read token) := by
  rcases token with ⟨kind, spelling, position⟩
  cases before with
  | start =>
      cases kind with
      | unaryKeyword => exact readKeyword_unplaced fun _ => rfl
      | _ => rfl
  | wire left =>
      cases kind with
      | binaryKeyword => exact readKeyword_unplaced fun _ => rfl
      | shiftKeyword => exact readKeyword_unplaced fun _ => rfl
      | _ => rfl
  | _ => cases kind <;> rfl

end StatementPrefix

/-! ## All tokens -/

namespace Reading

/-- What has been read, without the places of its names and literals. -/
def unplaced (reading : Reading) : Reading :=
  ⟨reading.statements.map Statement.unplaced, reading.current.unplaced⟩

/-- Reading one token commutes with forgetting places. -/
theorem step_unplaced (reading : Reading) (token : Token) :
    reading.unplaced.step token.unplaced =
      mapBoth GrammarFault.unplaced unplaced (reading.step token) := by
  rcases reading with ⟨statements, current⟩
  simp only [unplaced, step, StatementPrefix.read_unplaced]
  cases current.read token with
  | error fault => rfl
  | ok progress =>
      cases progress with
      | more longer => rfl
      | whole statement =>
          have hpush : (statements.push statement).map Statement.unplaced =
              (statements.map Statement.unplaced).push statement.unplaced := Array.map_push
          exact congrArg (fun statements => Except.ok (Reading.mk statements .start)) hpush.symm

/-- Whether the tokens may end here does not depend on places. -/
theorem finish_unplaced (reading : Reading) (here there : Position) :
    mapBoth GrammarFault.unplaced (fun schematic => schematic) (reading.unplaced.finish here) =
      mapBoth GrammarFault.unplaced Schematic.unplaced (reading.finish there) := by
  have hcurrent : reading.unplaced.current = .start ↔ reading.current = .start :=
    StatementPrefix.unplaced_eq_start_iff
  have hempty : reading.unplaced.statements.isEmpty = reading.statements.isEmpty := by
    simp [unplaced, Array.isEmpty]
  simp only [finish, hcurrent, hempty]
  split
  · simp [unplaced, Schematic.unplaced]
  · simp [unplaced, GrammarFault.unplaced]

end Reading

namespace Schematic

variable {tokens tokens' : List Token}

/-- Reading all tokens commutes with forgetting places. -/
theorem ofTokens_unplaced (tokens : List Token) :
    mapBoth GrammarFault.unplaced (fun schematic => schematic)
        (ofTokens (tokens.map Token.unplaced)) =
      mapBoth GrammarFault.unplaced unplaced (ofTokens tokens) := by
  have hsteps : (tokens.map Token.unplaced).foldlM Reading.step Reading.start.unplaced =
      mapBoth GrammarFault.unplaced Reading.unplaced (tokens.foldlM Reading.step Reading.start) :=
    foldlM_mapBoth Reading.step_unplaced tokens Reading.start
  have hstart : Reading.start.unplaced = Reading.start := by
    simp [Reading.unplaced, Reading.start, StatementPrefix.unplaced]
  rw [hstart] at hsteps
  rw [ofTokens, ofTokens, hsteps]
  cases tokens.foldlM Reading.step Reading.start with
  | error fault => cases fault <;> rfl
  | ok reading => exact reading.finish_unplaced _ _

/-- Tokens that differ in their places alone are read alike, up to places. -/
theorem ofTokens_congr (h : tokens.map Token.unplaced = tokens'.map Token.unplaced) :
    mapBoth GrammarFault.unplaced unplaced (ofTokens tokens) =
      mapBoth GrammarFault.unplaced unplaced (ofTokens tokens') := by
  rw [← ofTokens_unplaced, ← ofTokens_unplaced, h]

end Schematic

end BitwiseCircuit
