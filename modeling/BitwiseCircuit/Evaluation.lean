import BitwiseCircuit.Fault
import BitwiseCircuit.Netlist.OfSchematic
import BitwiseCircuit.Netlist.Resolve
import BitwiseCircuit.Schematic.Grammar
import BitwiseCircuit.Token.Scan

/-!
# Evaluating a circuit text

The three stages in a row: from text to tokens, from tokens to a schematic, and
from the schematic to a netlist whose wires can be resolved.

Main results:

- Definition `Circuit.ofText` goes through the stages up to the netlist, on which
  nothing is resolved yet.
- Definition `evaluate` reports the words of the wires that are asked for.
-/

namespace BitwiseCircuit

/-- The schematic that a text spells. -/
def Schematic.ofText (text : String) : Except Fault Schematic := do
  let tokens ← (tokenize text).mapError .token
  (Schematic.ofTokens tokens).mapError .grammar

/-- A schematic together with the netlist that is resolved for it. -/
structure Circuit where
  schematic : Schematic
  netlist : Netlist

namespace Circuit

/-- The circuit of a text, with no wire resolved. -/
def ofText (text : String) : Except Fault Circuit := do
  let schematic ← Schematic.ofText text
  let netlist ← (Netlist.ofSchematic schematic).mapError .wire
  return ⟨schematic, netlist⟩

/-- The words of the wires with the given names, or of all wires in the given
order if no name is given. -/
def report (circuit : Circuit) (names : List String) (order : Netlist.Order) :
    Except Fault Report :=
  ((Netlist.report names order).on circuit.netlist).1.mapError .wire

end Circuit

/-- The words of the wires of a circuit text that are asked for by name, or of all
its wires in the given order if none is. -/
def evaluate (text : String) (names : List String) (order : Netlist.Order) :
    Except Fault Report := do
  let circuit ← Circuit.ofText text
  circuit.report names order

end BitwiseCircuit
