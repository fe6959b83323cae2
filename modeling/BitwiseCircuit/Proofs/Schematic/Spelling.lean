import Mathlib.Data.List.Forall2
import BitwiseCircuit.Proofs.Except
import BitwiseCircuit.Proofs.Schematic.Transitions

/-!
# The tokens that spell a schematic

The grammar, as a relation between what is written and the tokens that write it.  Names,
literals and their places are those of the tokens; a keyword spells the operator; an
arrow, and the place of a keyword, leave no trace.

Main results:

- Definitions `Expression.SpelledBy`, `Statement.SpelledBy` and `Schematic.SpelledBy` are
  the grammar; `Schematic.toTokens` gives some tokens that spell a schematic.
- Theorem `Reading.SpelledBy.step`: a token that is read adds itself to what is spelled.
- Theorem `Statement.SpelledBy.foldlM_step`: the tokens of a statement are read as that
  statement.
- Theorem `Schematic.ofTokens_spelledBy`: tokens are read as a schematic exactly if they
  spell it.
-/

namespace BitwiseCircuit

/-! ## The grammar -/

/-- The tokens spell the expression. -/
inductive Expression.SpelledBy : Expression → List Token → Prop where
  | literal {value : Token} (hvalue : value.kind = .number) :
      SpelledBy (.literal (.ofToken value)) [value]
  | wire {source : Token} (hsource : source.kind = .wire) :
      SpelledBy (.wire (.ofToken source)) [source]
  | unary {op : UnaryOp} {keyword operand : Token} (hkind : keyword.kind = .unaryKeyword)
      (hkeyword : keyword.spelling = op.keyword) (hoperand : operand.kind = .wire) :
      SpelledBy (.unary op (.ofToken operand)) [keyword, operand]
  | binary {op : BinaryOp} {left keyword right : Token} (hleft : left.kind = .wire)
      (hkind : keyword.kind = .binaryKeyword) (hkeyword : keyword.spelling = op.keyword)
      (hright : right.kind = .wire) :
      SpelledBy (.binary op (.ofToken left) (.ofToken right)) [left, keyword, right]
  | shift {op : ShiftOp} {operand keyword amount : Token} (hoperand : operand.kind = .wire)
      (hkind : keyword.kind = .shiftKeyword) (hkeyword : keyword.spelling = op.keyword)
      (hamount : amount.kind = .number) :
      SpelledBy (.shift op (.ofToken operand) (.ofToken amount)) [operand, keyword, amount]

/-- The tokens spell the statement: its expression, an arrow, and its result. -/
inductive Statement.SpelledBy : Statement → List Token → Prop where
  | intro {expression : Expression} {tokens : List Token} {arrow result : Token}
      (hexpression : expression.SpelledBy tokens) (harrow : arrow.kind = .arrow)
      (hresult : result.kind = .wire) :
      SpelledBy ⟨expression, .ofToken result⟩ (tokens ++ [arrow, result])

/-- The tokens spell the schematic: its statements one after the other. -/
def Schematic.SpelledBy (schematic : Schematic) (tokens : List Token) : Prop :=
  ∃ parts, List.Forall₂ Statement.SpelledBy schematic.statements parts ∧ tokens = parts.flatten

/-! ## What has been read is spelled -/

namespace StatementPrefix

/-- The tokens spell the prefix of a statement. -/
inductive SpelledBy : StatementPrefix → List Token → Prop where
  | start : SpelledBy start []
  | wire {left : Token} (hleft : left.kind = .wire) : SpelledBy (wire (.ofToken left)) [left]
  | unary {op : UnaryOp} {keyword : Token} (hkind : keyword.kind = .unaryKeyword)
      (hkeyword : keyword.spelling = op.keyword) : SpelledBy (unary op) [keyword]
  | binary {op : BinaryOp} {left keyword : Token} (hleft : left.kind = .wire)
      (hkind : keyword.kind = .binaryKeyword) (hkeyword : keyword.spelling = op.keyword) :
      SpelledBy (binary op (.ofToken left)) [left, keyword]
  | shift {op : ShiftOp} {operand keyword : Token} (hoperand : operand.kind = .wire)
      (hkind : keyword.kind = .shiftKeyword) (hkeyword : keyword.spelling = op.keyword) :
      SpelledBy (shift op (.ofToken operand)) [operand, keyword]
  | expression {e : Expression} {tokens : List Token} (hexpression : e.SpelledBy tokens) :
      SpelledBy (expression e) tokens
  | arrow {e : Expression} {tokens : List Token} {arrow : Token}
      (hexpression : e.SpelledBy tokens) (harrow : arrow.kind = .arrow) :
      SpelledBy (.arrow e) (tokens ++ [arrow])

/-- The tokens spell a longer prefix, or the whole statement. -/
def Progress.SpelledBy : Progress → List Token → Prop
  | more longer, tokens => longer.SpelledBy tokens
  | whole statement, tokens => statement.SpelledBy tokens

variable {before : StatementPrefix} {progress : Progress} {token : Token} {tokens : List Token}

/-- A token that is read adds itself to the tokens that spell a statement. -/
theorem SpelledBy.read (h : before.SpelledBy tokens) (hread : before.read token = .ok progress) :
    progress.SpelledBy (tokens ++ [token]) := by
  cases reads_iff.mpr hread with
  | number hkind =>
      cases h
      exact SpelledBy.expression (.literal hkind)
  | wire hkind =>
      cases h
      exact SpelledBy.wire hkind
  | unary hkind hkeyword =>
      cases h
      exact SpelledBy.unary hkind hkeyword
  | source hkind =>
      cases h with
      | wire hleft => exact SpelledBy.arrow (.wire hleft) hkind
  | binary hkind hkeyword =>
      cases h with
      | wire hleft => exact SpelledBy.binary hleft hkind hkeyword
  | shift hkind hkeyword =>
      cases h with
      | wire hleft => exact SpelledBy.shift hleft hkind hkeyword
  | operand hkind =>
      cases h with
      | unary hunary hkeyword => exact SpelledBy.expression (.unary hunary hkeyword hkind)
  | right hkind =>
      cases h with
      | binary hleft hbinary hkeyword =>
          exact SpelledBy.expression (.binary hleft hbinary hkeyword hkind)
  | amount hkind =>
      cases h with
      | shift hoperand hshift hkeyword =>
          exact SpelledBy.expression (.shift hoperand hshift hkeyword hkind)
  | arrow hkind =>
      cases h with
      | expression hexpression => exact SpelledBy.arrow hexpression hkind
  | result hkind =>
      cases h with
      | arrow hexpression harrow =>
          rw [List.append_assoc]
          exact Statement.SpelledBy.intro hexpression harrow hkind

end StatementPrefix

namespace Reading

/-- The tokens spell the whole statements of a reading and the prefix after them. -/
def SpelledBy (reading : Reading) (tokens : List Token) : Prop :=
  ∃ done last, Schematic.SpelledBy ⟨reading.statements.toList⟩ done ∧
    reading.current.SpelledBy last ∧ tokens = done ++ last

variable {reading reading' : Reading} {token : Token} {tokens : List Token}

/-- A token that is read adds itself to the tokens that spell a reading. -/
theorem SpelledBy.step (h : reading.SpelledBy tokens) (hstep : reading.step token = .ok reading') :
    reading'.SpelledBy (tokens ++ [token]) := by
  rcases reading with ⟨statements, current⟩
  rcases h with ⟨done, last, hdone, hlast, rfl⟩
  rcases exists_of_bind_eq_ok hstep with ⟨progress, hread, hprogress⟩
  have hspelled := hlast.read hread
  cases progress with
  | more longer =>
      cases hprogress
      exact ⟨done, last ++ [token], hdone, hspelled, List.append_assoc ..⟩
  | whole statement =>
      cases hprogress
      rcases hdone with ⟨parts, hparts, rfl⟩
      -- The tokens of the whole statement become one more part of what is done.
      refine ⟨_, [], ⟨parts ++ [last ++ [token]], ?_, rfl⟩, .start, by simp⟩
      rw [Array.toList_push]
      exact List.rel_append hparts (.cons hspelled .nil)

/-- What tokens are read as, they spell. -/
theorem spelledBy_of_foldlM (h : tokens.foldlM step start = .ok reading) :
    reading.SpelledBy tokens := by
  refine holds_of_foldlM_eq_ok (P := fun done reading => reading.SpelledBy done)
    (fun done token before after hdone hstep => hdone.step hstep) ?_ h
  exact ⟨[], [], ⟨[], .nil, rfl⟩, .start, rfl⟩

end Reading

/-! ## What is spelled is read -/

namespace Reading

variable {statements : Array Statement} {before longer : StatementPrefix} {statement : Statement}
  {token : Token} {rest : List Token}

private theorem foldlM_cons_of_more (h : before.Reads token (.more longer)) :
    (token :: rest).foldlM step ⟨statements, before⟩ = rest.foldlM step ⟨statements, longer⟩ := by
  rw [List.foldlM_cons, step, h.read_eq]
  rfl

private theorem foldlM_cons_of_whole (h : before.Reads token (.whole statement)) :
    (token :: rest).foldlM step ⟨statements, before⟩ =
      rest.foldlM step ⟨statements.push statement, .start⟩ := by
  rw [List.foldlM_cons, step, h.read_eq]
  rfl

/-- Reading may end after a whole statement, and gives the statements that were read. -/
theorem finish_eq_ok_iff {reading : Reading} {position : Position} {schematic : Schematic} :
    reading.finish position = .ok schematic ↔ reading.current = .start ∧
      schematic.statements ≠ [] ∧ reading.statements.toList = schematic.statements := by
  rcases schematic with ⟨statements⟩
  rw [finish]
  split
  · rename_i hwhole
    simp only [Bool.and_eq_true, decide_eq_true_eq, Bool.not_eq_true', Array.isEmpty_eq_false_iff]
      at hwhole
    simp only [Except.ok.injEq, Schematic.mk.injEq, hwhole.1, true_and]
    refine ⟨fun h => ⟨?_, h⟩, fun h => h.2⟩
    rw [← h]
    simpa using hwhole.2
  · rename_i hpart
    simp only [reduceCtorEq, false_iff]
    rintro ⟨hcurrent, hne, rfl⟩
    exact hpart (by simpa [hcurrent] using hne)

end Reading

variable {tokens : List Token}

/-- The tokens of an expression are read, and an arrow can follow them. -/
theorem Expression.SpelledBy.exists_foldlM_step {expression : Expression}
    (h : expression.SpelledBy tokens) (statements : Array Statement) :
    ∃ before, tokens.foldlM Reading.step ⟨statements, .start⟩ = .ok ⟨statements, before⟩ ∧
      ∀ arrow : Token, arrow.kind = .arrow → before.Reads arrow (.more (.arrow expression)) := by
  cases h with
  | literal hvalue =>
      refine ⟨_, ?_, fun _ => .arrow⟩
      rw [Reading.foldlM_cons_of_more (.number hvalue)]
      rfl
  | wire hsource =>
      refine ⟨_, ?_, fun _ => .source⟩
      rw [Reading.foldlM_cons_of_more (.wire hsource)]
      rfl
  | unary hkind hkeyword hoperand =>
      refine ⟨_, ?_, fun _ => .arrow⟩
      rw [Reading.foldlM_cons_of_more (.unary hkind hkeyword),
        Reading.foldlM_cons_of_more (.operand hoperand)]
      rfl
  | binary hleft hkind hkeyword hright =>
      refine ⟨_, ?_, fun _ => .arrow⟩
      rw [Reading.foldlM_cons_of_more (.wire hleft),
        Reading.foldlM_cons_of_more (.binary hkind hkeyword),
        Reading.foldlM_cons_of_more (.right hright)]
      rfl
  | shift hoperand hkind hkeyword hamount =>
      refine ⟨_, ?_, fun _ => .arrow⟩
      rw [Reading.foldlM_cons_of_more (.wire hoperand),
        Reading.foldlM_cons_of_more (.shift hkind hkeyword),
        Reading.foldlM_cons_of_more (.amount hamount)]
      rfl

/-- The tokens of a statement are read as that statement. -/
theorem Statement.SpelledBy.foldlM_step {statement : Statement} (h : statement.SpelledBy tokens)
    (statements : Array Statement) : tokens.foldlM Reading.step ⟨statements, .start⟩ =
      .ok ⟨statements.push statement, .start⟩ := by
  cases h with
  | @intro expression tokens arrow result hexpression harrow hresult =>
      rcases hexpression.exists_foldlM_step statements with ⟨before, hfold, hbefore⟩
      calc
        (tokens ++ [arrow, result]).foldlM Reading.step ⟨statements, .start⟩ =
            [arrow, result].foldlM Reading.step ⟨statements, before⟩ := by
          rw [List.foldlM_append, hfold]
          rfl
        _ = .ok ⟨statements.push ⟨expression, .ofToken result⟩, .start⟩ := by
          rw [Reading.foldlM_cons_of_more (hbefore arrow harrow),
            Reading.foldlM_cons_of_whole (.result hresult)]
          rfl

/-- The tokens of several statements are read as these statements. -/
theorem foldlM_step_flatten {statements : List Statement} {parts : List (List Token)}
    (h : List.Forall₂ Statement.SpelledBy statements parts) (before : Array Statement) :
    parts.flatten.foldlM Reading.step ⟨before, .start⟩ =
      .ok ⟨before ++ statements.toArray, .start⟩ := by
  induction h generalizing before with
  | nil =>
      rw [List.flatten_nil, List.foldlM_nil, Array.append_empty]
      rfl
  | cons hstatement _ ih =>
      rw [List.flatten_cons, List.foldlM_append, hstatement.foldlM_step before]
      refine (ih (before.push _)).trans ?_
      rw [List.toArray_cons, ← Array.append_assoc, Array.append_singleton]

namespace Schematic

variable {schematic : Schematic}

/-- Tokens that spell a schematic are read as its statements. -/
theorem SpelledBy.foldlM_step (h : schematic.SpelledBy tokens) :
    tokens.foldlM Reading.step .start = .ok ⟨schematic.statements.toArray, .start⟩ := by
  rcases h with ⟨parts, hparts, rfl⟩
  rw [Reading.start, foldlM_step_flatten hparts, Array.empty_append]

/-- A list of tokens is read as the schematic that it spells. -/
theorem SpelledBy.ofTokens_eq_ok (h : schematic.SpelledBy tokens)
    (hne : schematic.statements ≠ []) : ofTokens tokens = .ok schematic := by
  rw [ofTokens, h.foldlM_step]
  exact Reading.finish_eq_ok_iff.mpr ⟨rfl, hne, rfl⟩

/-- What is read as a schematic spells it, and the schematic has a statement at least. -/
theorem spelledBy_of_ofTokens (h : ofTokens tokens = .ok schematic) :
    schematic.statements ≠ [] ∧ schematic.SpelledBy tokens := by
  rcases exists_of_bind_eq_ok h with ⟨reading, hfold, hfinish⟩
  rcases Reading.finish_eq_ok_iff.mp hfinish with ⟨hcurrent, hne, hstatements⟩
  rcases Reading.spelledBy_of_foldlM hfold with ⟨done, last, hdone, hlast, rfl⟩
  rw [hcurrent] at hlast
  cases hlast
  rw [hstatements] at hdone
  exact ⟨hne, by rwa [List.append_nil]⟩

/-- A list of tokens spells one schematic at most. -/
theorem SpelledBy.unique {schematic' : Schematic} (h : schematic.SpelledBy tokens)
    (h' : schematic'.SpelledBy tokens) : schematic = schematic' := by
  rcases schematic with ⟨statements⟩
  rcases schematic' with ⟨statements'⟩
  have hread := h.foldlM_step.symm.trans h'.foldlM_step
  simpa using hread

end Schematic

/-! ## Some tokens for every schematic -/

/-- The token of a wire. -/
def Mention.toToken (mention : Mention) : Token :=
  ⟨.wire, mention.name, mention.position⟩

/-- The token of a literal. -/
def Numeral.toToken (numeral : Numeral) : Token :=
  ⟨.number, numeral.spelling, numeral.position⟩

/-- The tokens of an expression.  The place of a keyword is not known any more; it is put at
`place`. -/
def Expression.toTokens (place : Position) : Expression → List Token
  | literal value => [value.toToken]
  | wire source => [source.toToken]
  | unary op operand => [⟨.unaryKeyword, op.keyword, place⟩, operand.toToken]
  | binary op left right =>
    [left.toToken, ⟨.binaryKeyword, op.keyword, place⟩, right.toToken]
  | shift op operand amount =>
    [operand.toToken, ⟨.shiftKeyword, op.keyword, place⟩, amount.toToken]

/-- The tokens of a statement, with its keyword and its arrow at `place`. -/
def Statement.toTokens (place : Position) (statement : Statement) : List Token :=
  statement.expression.toTokens place ++ [⟨.arrow, "->", place⟩, statement.result.toToken]

/-- The tokens of a schematic, with its keywords and arrows at `place`. -/
def Schematic.toTokens (place : Position) (schematic : Schematic) : List Token :=
  (schematic.statements.map (Statement.toTokens place)).flatten

/-- An expression is spelled by the tokens that write it. -/
theorem Expression.spelledBy_toTokens (place : Position) (expression : Expression) :
    expression.SpelledBy (expression.toTokens place) := by
  cases expression with
  | literal value => exact @SpelledBy.literal value.toToken rfl
  | wire source => exact @SpelledBy.wire source.toToken rfl
  | unary op operand => exact @SpelledBy.unary op _ operand.toToken rfl rfl rfl
  | binary op left right =>
      exact @SpelledBy.binary op left.toToken _ right.toToken rfl rfl rfl rfl
  | shift op operand amount =>
      exact @SpelledBy.shift op operand.toToken _ amount.toToken rfl rfl rfl rfl

/-- A statement is spelled by the tokens that write it. -/
theorem Statement.spelledBy_toTokens (place : Position) (statement : Statement) :
    statement.SpelledBy (statement.toTokens place) :=
  @SpelledBy.intro _ _ _ statement.result.toToken (statement.expression.spelledBy_toTokens place)
    rfl rfl

namespace Schematic

/-- A schematic is spelled by the tokens that write it. -/
theorem spelledBy_toTokens (place : Position) (schematic : Schematic) :
    schematic.SpelledBy (schematic.toTokens place) := by
  refine ⟨_, ?_, rfl⟩
  rw [List.forall₂_map_right_iff, List.forall₂_same]
  exact fun statement _ => statement.spelledBy_toTokens place

/-- Tokens are read as a schematic exactly if they spell it and it has a statement.  They
spell one schematic at most, so that the tokens of a schematic are read as itself. -/
theorem ofTokens_spelledBy :
    (∀ tokens schematic, ofTokens tokens = .ok schematic ↔
      schematic.statements ≠ [] ∧ schematic.SpelledBy tokens) ∧
    (∀ tokens (schematic schematic' : Schematic), schematic.SpelledBy tokens →
      schematic'.SpelledBy tokens → schematic = schematic') ∧
    ∀ place schematic, schematic.statements ≠ [] →
      schematic.SpelledBy (schematic.toTokens place) ∧
        ofTokens (schematic.toTokens place) = .ok schematic := by
  refine ⟨fun tokens schematic => ⟨spelledBy_of_ofTokens, ?_⟩, fun _ _ _ h h' => h.unique h', ?_⟩
  · rintro ⟨hne, hspelled⟩
    exact hspelled.ofTokens_eq_ok hne
  · intro place schematic hne
    have hspelled := schematic.spelledBy_toTokens place
    exact ⟨hspelled, hspelled.ofTokens_eq_ok hne⟩

/-- `NOT x -> y` as a schematic. -/
def complement : Schematic :=
  ⟨[⟨.unary .not ⟨"x", ⟨1, 5⟩⟩, ⟨"y", ⟨1, 10⟩⟩⟩]⟩

/-- The tokens of `NOT x -> y` are read as `complement`; the tokens that write `complement` spell
nothing else and are read back. -/
theorem complement_spelledBy :
    ofTokens [⟨.unaryKeyword, "NOT", ⟨1, 1⟩⟩, ⟨.wire, "x", ⟨1, 5⟩⟩, ⟨.arrow, "->", ⟨1, 7⟩⟩,
      ⟨.wire, "y", ⟨1, 10⟩⟩] = .ok complement ∧
    (∀ other : Schematic, other.SpelledBy (complement.toTokens .first) → other = complement) ∧
    ofTokens (complement.toTokens .first) = .ok complement := by
  rcases ofTokens_spelledBy with ⟨hgrammar, hunique, hback⟩
  rcases hback .first complement (List.cons_ne_nil _ _) with ⟨hspelled, hread⟩
  refine ⟨(hgrammar _ _).mpr ⟨List.cons_ne_nil _ _, ?_⟩,
    fun other hother => hunique _ _ _ hother hspelled, hread⟩
  have hstatement := @Statement.SpelledBy.intro _ _ ⟨.arrow, "->", ⟨1, 7⟩⟩ ⟨.wire, "y", ⟨1, 10⟩⟩
    (@Expression.SpelledBy.unary .not ⟨.unaryKeyword, "NOT", ⟨1, 1⟩⟩ ⟨.wire, "x", ⟨1, 5⟩⟩
      rfl rfl rfl) rfl rfl
  exact ⟨_, .cons hstatement .nil, rfl⟩

end Schematic

end BitwiseCircuit
