import BitwiseCircuit.Netlist.Fault
import BitwiseCircuit.Schematic.Fault
import BitwiseCircuit.Token.Fault

/-!
# Faults of a circuit text

A circuit text goes through three stages: it is split into tokens, these are read
as a schematic, and the wires of the schematic are resolved.  Each stage has its
faults, and the first fault of the first stage that has one is the fault of the
text.

Main results:

- Definitions `Fault.message`, `Fault.code` and `Fault.position` say what is
  wrong and in which stage, under which code it is reported, and where it is.
-/

namespace BitwiseCircuit

/-- What can be wrong with a circuit text. -/
inductive Fault where
  | token (fault : TokenFault)
  | grammar (fault : GrammarFault)
  | wire (fault : WireFault)
deriving DecidableEq, Repr

namespace Fault

/-- What is wrong, after the name of the stage that found it. -/
def message : Fault → String
  | token fault => "lex error: " ++ fault.message
  | grammar fault => "parse error: " ++ fault.message
  | wire fault => "evaluation error: " ++ fault.message

/-- The code under which a fault is reported. -/
def code : Fault → String
  | token fault => fault.code
  | grammar fault => fault.code
  | wire fault => fault.code

/-- Where the fault is, if it is anywhere in the text. -/
def position : Fault → Option Position
  | token fault => some fault.position
  | grammar fault => some fault.position
  | wire fault => fault.position

end Fault

end BitwiseCircuit
