import BitwiseCircuit.Schematic
import BitwiseCircuit.Schematic.Fault

/-!
# The grammar of schematics

A schematic is one statement or more, with nothing between them:

    statement   =  expression  arrow  wire
    expression  =  number
                |  wire
                |  unary keyword  wire
                |  wire  binary keyword  wire
                |  wire  shift keyword  number

One token at a time is enough to read it.  What has been read of a statement is
a prefix of it, and each prefix knows the kinds of token that may come next; any
other token, and a keyword that names no operator of its kind, is a fault at once.

Main results:

- Definition `StatementPrefix.expected` lists the kinds that may follow a prefix,
  and `StatementPrefix.read` reads the next token of a statement.
- Theorem `StatementPrefix.read_eq_error_of_not_mem`: every other kind is a
  fault.
- Definition `Schematic.ofTokens` reads a whole list of tokens.
-/

namespace BitwiseCircuit

/-! ## Tokens as parts of a statement -/

/-- The wire that a token names. -/
def Mention.ofToken (token : Token) : Mention :=
  ⟨token.spelling, token.position⟩

/-- The literal that a token spells. -/
def Numeral.ofToken (token : Token) : Numeral :=
  ⟨token.spelling, token.position⟩

/-! ## Prefixes of statements -/

/-- What has been read of a statement. -/
inductive StatementPrefix where
  /-- Nothing yet. -/
  | start
  /-- A wire, which may be a whole expression or the left part of one. -/
  | wire (left : Mention)
  /-- A unary operator, whose operand is to come. -/
  | unary (op : UnaryOp)
  /-- A wire and a binary operator, whose right operand is to come. -/
  | binary (op : BinaryOp) (left : Mention)
  /-- A wire and a shift operator, whose amount is to come. -/
  | shift (op : ShiftOp) (operand : Mention)
  /-- A whole expression that nothing but the arrow can follow. -/
  | expression (expression : Expression)
  /-- An expression and the arrow; the result is to come. -/
  | arrow (expression : Expression)
deriving DecidableEq, Repr

namespace StatementPrefix

/-- The kinds of token that may follow a prefix of a statement. -/
def expected : StatementPrefix → List TokenKind
  | start => [.number, .wire, .unaryKeyword]
  | wire _ => [.arrow, .binaryKeyword, .shiftKeyword]
  | unary _ => [.wire]
  | binary .. => [.wire]
  | shift .. => [.number]
  | expression _ => [.arrow]
  | arrow _ => [.wire]

/-- What the next token makes of a statement: a longer prefix, or the whole. -/
inductive Progress where
  | more (longer : StatementPrefix)
  | whole (statement : Statement)
deriving DecidableEq, Repr

/-- Reads a keyword that must name an operator. -/
def readKeyword {Op : Type} (ofKeyword? : String → Option Op) (token : Token)
    (next : Op → StatementPrefix) : Except GrammarFault Progress :=
  match ofKeyword? token.spelling with
  | some op => .ok (.more (next op))
  | none => .error (.unexpectedToken [token.kind] token)

/-- Reads the next token of a statement. -/
def read (before : StatementPrefix) (token : Token) : Except GrammarFault Progress :=
  match before, token.kind with
  | start, .number => .ok (.more (expression (.literal (.ofToken token))))
  | start, .wire => .ok (.more (wire (.ofToken token)))
  | start, .unaryKeyword => readKeyword UnaryOp.ofKeyword? token unary
  | wire left, .arrow => .ok (.more (arrow (.wire left)))
  | wire left, .binaryKeyword => readKeyword BinaryOp.ofKeyword? token (binary · left)
  | wire left, .shiftKeyword => readKeyword ShiftOp.ofKeyword? token (shift · left)
  | unary op, .wire => .ok (.more (expression (.unary op (.ofToken token))))
  | binary op left, .wire => .ok (.more (expression (.binary op left (.ofToken token))))
  | shift op operand, .number => .ok (.more (expression (.shift op operand (.ofToken token))))
  | expression e, .arrow => .ok (.more (arrow e))
  | arrow e, .wire => .ok (.whole ⟨e, .ofToken token⟩)
  | _, _ => .error (.unexpectedToken before.expected token)

/-- A token of a kind that may not follow is always a fault. -/
theorem read_eq_error_of_not_mem {before : StatementPrefix} {token : Token}
    (h : token.kind ∉ before.expected) :
    before.read token = .error (.unexpectedToken before.expected token) := by
  obtain ⟨kind, spelling, position⟩ := token
  cases before <;> cases kind <;> simp_all [expected, read]

end StatementPrefix

/-! ## Whole schematics -/

/-- A list of tokens read so far: the statements that are whole, and the prefix
of the next one. -/
structure Reading where
  statements : Array Statement
  current : StatementPrefix
deriving DecidableEq, Repr

namespace Reading

/-- Nothing is read yet. -/
def start : Reading := ⟨#[], .start⟩

/-- Reads one token. -/
def step (reading : Reading) (token : Token) : Except GrammarFault Reading := do
  let ⟨statements, current⟩ := reading
  match ← current.read token with
  | .more longer => return ⟨statements, longer⟩
  | .whole statement => return ⟨statements.push statement, .start⟩

/-- The schematic that was read, if the tokens may end here: after one whole
statement or more. -/
def finish (reading : Reading) (position : Position) : Except GrammarFault Schematic :=
  if reading.current = .start && !reading.statements.isEmpty then
    .ok ⟨reading.statements.toList⟩
  else
    .error (.unexpectedEnd reading.current.expected position)

end Reading

/-- The place where a list of tokens ends: just past the last one, or the start
of the text if there is none. -/
def Token.endOf (tokens : List Token) : Position :=
  (tokens.getLast?.map Token.finish).getD .first

/-- The schematic that a list of tokens spells. -/
def Schematic.ofTokens (tokens : List Token) : Except GrammarFault Schematic := do
  let reading ← tokens.foldlM Reading.step Reading.start
  reading.finish (Token.endOf tokens)

end BitwiseCircuit
