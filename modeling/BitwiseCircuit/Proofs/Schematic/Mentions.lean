import BitwiseCircuit.Proofs.Except
import BitwiseCircuit.Proofs.Schematic.Transitions

/-!
# Mentions of wires in a text

Reading a schematic from tokens neither invents wires nor loses any: the statements
mention exactly what the wire tokens name, in the same places.

Main results:

- Definition `Reading.mentions` collects what has been mentioned so far, also in the
  prefix of a statement that is not whole.
- Theorem `Reading.mem_mentions_of_step`: one token adds what it names.
- Theorem `Schematic.mem_mentions_iff`: the mentions of a schematic are the wire tokens
  that it was read from.
-/

namespace BitwiseCircuit

variable {token : Token} {tokens : List Token} {mention : Mention}

/-- The token names a wire, and this is the mention. -/
def Token.Names (token : Token) (mention : Mention) : Prop :=
  token.kind = .wire ∧ Mention.ofToken token = mention

/-! ## One token of a statement -/

namespace StatementPrefix

variable {before : StatementPrefix} {progress : Progress}

/-- The wires that are named in a prefix of a statement. -/
def mentions : StatementPrefix → List Mention
  | start => []
  | wire left => [left]
  | unary _ => []
  | binary _ left => [left]
  | shift _ operand => [operand]
  | expression e => e.operands
  | arrow e => e.operands

/-- The wires that are named in a longer prefix, or in the whole statement. -/
def Progress.mentions : Progress → List Mention
  | more longer => longer.mentions
  | whole statement => statement.mentions

/-- A token adds the wire that it names to a statement, and nothing else. -/
theorem mem_mentions_of_read (h : before.read token = .ok progress) :
    mention ∈ progress.mentions ↔ mention ∈ before.mentions ∨ token.Names mention := by
  cases reads_iff.mpr h with
  | result hkind =>
      simp [Progress.mentions, mentions, Statement.mentions, Token.Names, hkind, eq_comm, or_comm]
  | _ hkind =>
      simp [Progress.mentions, mentions, Expression.operands, Token.Names, hkind, eq_comm]

end StatementPrefix

/-! ## All tokens of a text -/

namespace Reading

variable {reading reading' : Reading}

/-- The wires that have been named so far. -/
def mentions (reading : Reading) : List Mention :=
  reading.statements.toList.flatMap Statement.mentions ++ reading.current.mentions

/-- One token adds what it names. -/
theorem mem_mentions_of_step (h : reading.step token = .ok reading') :
    mention ∈ reading'.mentions ↔ mention ∈ reading.mentions ∨ token.Names mention := by
  rcases reading with ⟨statements, current⟩
  rcases exists_of_bind_eq_ok h with ⟨progress, hread, hprogress⟩
  have hadded : mention ∈ progress.mentions ↔
      mention ∈ current.mentions ∨ token.Names mention :=
    StatementPrefix.mem_mentions_of_read hread
  cases progress with
  | more longer =>
      cases hprogress
      simp only [StatementPrefix.Progress.mentions] at hadded
      simp only [mentions, List.mem_append, hadded, or_assoc]
  | whole statement =>
      cases hprogress
      simp only [StatementPrefix.Progress.mentions] at hadded
      simp only [mentions, StatementPrefix.mentions, Array.toList_push, List.flatMap_append,
        List.flatMap_singleton, List.append_nil, List.mem_append, hadded, or_assoc]

/-- Tokens that are read from the start on are mentioned, and nothing else is. -/
theorem mem_mentions_of_foldlM (h : tokens.foldlM step start = .ok reading) :
    ∀ mention, mention ∈ reading.mentions ↔ ∃ token ∈ tokens, token.Names mention := by
  refine holds_of_foldlM_eq_ok (P := fun done reading => ∀ mention,
    mention ∈ reading.mentions ↔ ∃ token ∈ done, token.Names mention) ?_ ?_ h
  · intro done token before after hbefore hstep mention
    rw [mem_mentions_of_step hstep, hbefore]
    simp [or_and_right, exists_or]
  · simp [mentions, start, StatementPrefix.mentions]

end Reading

/-- The mentions of a schematic are the wire tokens that it was read from. -/
theorem Schematic.mem_mentions_iff {schematic : Schematic} (h : ofTokens tokens = .ok schematic) :
    (∃ statement ∈ schematic.statements, mention ∈ statement.mentions) ↔
      ∃ token ∈ tokens, token.Names mention := by
  rcases exists_of_bind_eq_ok h with ⟨reading, hfold, hfinish⟩
  have hread := Reading.mem_mentions_of_foldlM hfold mention
  simp only [Reading.finish, Bool.and_eq_true, decide_eq_true_eq] at hfinish
  split at hfinish
  · rename_i hwhole
    cases hfinish
    simpa [Reading.mentions, hwhole.1, StatementPrefix.mentions] using hread
  · cases hfinish

/-- The names in a schematic are the spellings of the wire tokens. -/
theorem Schematic.exists_mention_iff {schematic : Schematic} (h : ofTokens tokens = .ok schematic)
    (name : String) :
    (∃ statement ∈ schematic.statements, ∃ mention ∈ statement.mentions, mention.name = name) ↔
      ∃ token ∈ tokens, token.kind = .wire ∧ token.spelling = name := by
  constructor
  · rintro ⟨statement, hstatement, mention, hmention, rfl⟩
    rcases (mem_mentions_iff h).mp ⟨statement, hstatement, hmention⟩ with
      ⟨token, htoken, hkind, rfl⟩
    exact ⟨token, htoken, hkind, rfl⟩
  · rintro ⟨token, htoken, hkind, rfl⟩
    rcases (mem_mentions_iff h).mpr ⟨token, htoken, hkind, rfl⟩ with
      ⟨statement, hstatement, hmention⟩
    exact ⟨statement, hstatement, _, hmention, rfl⟩

end BitwiseCircuit
