import BitwiseCircuit.Operator
import BitwiseCircuit.Position

/-!
# Schematics

A schematic is a circuit as it is written: a list of statements, each of which
drives one wire by an expression over wires and literals.  Names and literals
keep their spelling and their place in the text.

Main results:

- Definition `Expression.operands` lists the wires that an expression reads, and
  `Statement.mentions` every wire that a statement names, from its result on.
- Definition `Statement.position` is the place of a statement's first operand.
-/

namespace BitwiseCircuit

/-- A wire name at one place of a text. -/
structure Mention where
  name : String
  position : Position
deriving DecidableEq, Repr

/-- A decimal literal at one place of a text; whether it fits in a word is not
yet known. -/
structure Numeral where
  spelling : String
  position : Position
deriving DecidableEq, Repr

/-- What drives a wire, as it is written. -/
inductive Expression where
  /-- A constant signal. -/
  | literal (value : Numeral)
  /-- The signal of another wire. -/
  | wire (source : Mention)
  /-- An operator with one operand. -/
  | unary (op : UnaryOp) (operand : Mention)
  /-- An operator between two wires. -/
  | binary (op : BinaryOp) (left right : Mention)
  /-- A shift of a wire by a literal number of places. -/
  | shift (op : ShiftOp) (operand : Mention) (amount : Numeral)
deriving DecidableEq, Repr

namespace Expression

/-- The wires that an expression reads, from left to right. -/
def operands : Expression → List Mention
  | literal _ => []
  | wire source => [source]
  | unary _ operand => [operand]
  | binary _ left right => [left, right]
  | shift _ operand _ => [operand]

/-- The place of an expression's first operand; the keyword of a unary operator
stands before it and has no place of its own. -/
def position : Expression → Position
  | literal value => value.position
  | wire source => source.position
  | unary _ operand => operand.position
  | binary _ left _ => left.position
  | shift _ operand _ => operand.position

end Expression

/-- One statement: the wire `result` is driven by `expression`. -/
structure Statement where
  expression : Expression
  result : Mention
deriving DecidableEq, Repr

namespace Statement

/-- The place of a statement is that of its expression. -/
def position (statement : Statement) : Position :=
  statement.expression.position

/-- The wires that a statement names: its result first, then its operands. -/
def mentions (statement : Statement) : List Mention :=
  statement.result :: statement.expression.operands

end Statement

/-- A circuit as it is written. -/
structure Schematic where
  statements : List Statement
deriving DecidableEq, Repr

end BitwiseCircuit
