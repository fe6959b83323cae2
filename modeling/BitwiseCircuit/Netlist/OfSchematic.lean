import BitwiseCircuit.Netlist
import BitwiseCircuit.Netlist.Fault
import BitwiseCircuit.Schematic

/-!
# The netlist of a schematic

Each statement drives the wire that is its result by the gate that its
expression describes.  Wires are added as they are mentioned, the result of a
statement before its operands, so a statement may read a wire that is assigned
only later, or never.

Main results:

- Definition `Expression.toGate` turns an expression into a gate over the names
  in it; a literal that is no word is a fault.
- Definition `Netlist.assign` adds one statement; a second driver of one wire is
  a fault, and wins over a bad literal of the same statement.
- Definition `Netlist.ofSchematic` adds all statements in order.
-/

namespace BitwiseCircuit

/-- The word of a literal. -/
def Numeral.toWord (numeral : Numeral) : Except WireFault Word :=
  match Word.ofDecimal? numeral.spelling with
  | some word => .ok word
  | none => .error (.literalOutOfRange numeral.spelling numeral.position)

/-- The gate that an expression describes, over the names in it. -/
def Expression.toGate : Expression → Except WireFault (Gate Mention)
  | literal value => do
    return .buffer (.literal (← value.toWord))
  | wire source => return .buffer (.wire source)
  | unary op operand => return .unary op (.wire operand)
  | binary op left right => return .binary op (.wire left) (.wire right)
  | shift op operand amount => do
    return .shift op (.wire operand) (.literal (← amount.toWord))

namespace Netlist

/-- The number of the wire that is mentioned, which is added if it is new. -/
def internMention (mention : Mention) : StateM Netlist WireId :=
  modifyGet fun net => net.intern mention.name mention.position

/-- Adds one statement. -/
def assign (net : Netlist) (statement : Statement) : Except WireFault Netlist :=
  let result := statement.result
  let (id, net) := net.intern result.name result.position
  match net.driver? id with
  | some driver => .error (.reassigned result.name driver.position result.position)
  | none => do
    let gate ← statement.expression.toGate
    let (gate, net) := (gate.mapWires internMention).run net
    return net.drive id ⟨gate, result.position⟩

/-- The netlist of a schematic. -/
def ofSchematic (schematic : Schematic) : Except WireFault Netlist :=
  schematic.statements.foldlM assign empty

end Netlist

end BitwiseCircuit
