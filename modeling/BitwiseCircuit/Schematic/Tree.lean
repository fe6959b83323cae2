import BitwiseCircuit.Schematic
import BitwiseCircuit.Token

/-!
# Schematics as trees

A schematic is shown as an indented tree with one node to a line.  Inner nodes
carry the name of a construct, leaves an operator's keyword or a token.

Main results:

- Definition `Schematic.outline` lists the nodes with their depths.
- Definition `Schematic.toTree` writes them, indented by their depths.
-/

namespace BitwiseCircuit

/-- One line of an indented tree. -/
structure TreeNode where
  depth : Nat
  label : String
deriving DecidableEq, Repr

/-- A node is written after two spaces for each level of its depth. -/
def TreeNode.toLine (node : TreeNode) : String :=
  String.ofList (List.replicate (2 * node.depth) ' ') ++ node.label ++ "\n"

/-- The leaf of a wire is its token. -/
def Mention.label (mention : Mention) : String :=
  toString (⟨.wire, mention.name, mention.position⟩ : Token)

/-- The leaf of a literal is its token. -/
def Numeral.label (numeral : Numeral) : String :=
  toString (⟨.number, numeral.spelling, numeral.position⟩ : Token)

namespace Expression

/-- The name of the construct that an expression is. -/
def construct : Expression → String
  | literal _ | wire _ => "SignalExpression"
  | unary .. => "UnaryExpression"
  | binary .. => "ComboExpression"
  | shift .. => "ShiftExpression"

/-- The leaves of an expression, from left to right. -/
def leaves : Expression → List String
  | literal value => [value.label]
  | wire source => [source.label]
  | unary op operand => [op.keyword, operand.label]
  | binary op left right => [left.label, op.keyword, right.label]
  | shift op operand amount => [operand.label, op.keyword, amount.label]

end Expression

/-- The nodes of a statement: its expression with its leaves, then its
result. -/
def Statement.outline (statement : Statement) : List TreeNode :=
  [⟨1, "Statement"⟩, ⟨2, statement.expression.construct⟩]
    ++ statement.expression.leaves.map (⟨3, ·⟩)
    ++ [⟨2, "Result"⟩, ⟨3, statement.result.label⟩]

namespace Schematic

/-- The nodes of a schematic, each before those below it. -/
def outline (schematic : Schematic) : List TreeNode :=
  ⟨0, "Schematic"⟩ :: schematic.statements.flatMap Statement.outline

/-- The tree of a schematic, every line ended by a newline. -/
def toTree (schematic : Schematic) : String :=
  String.join (schematic.outline.map TreeNode.toLine)

end Schematic

end BitwiseCircuit
