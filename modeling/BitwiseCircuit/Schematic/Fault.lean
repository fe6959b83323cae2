import BitwiseCircuit.Token

/-!
# Faults in the grammar of a text

What can be wrong with a list of tokens that should be a schematic.

Main results:

- Definitions `GrammarFault.message`, `GrammarFault.code` and
  `GrammarFault.position` say what is wrong, under which code it is reported,
  and where it is.
-/

namespace BitwiseCircuit

/-- A list of tokens that is no schematic. -/
inductive GrammarFault where
  /-- The token `found` stands where only the kinds `expected` may. -/
  | unexpectedToken (expected : List TokenKind) (found : Token)
  /-- The tokens end at `position`, where one of the kinds `expected` must
  follow. -/
  | unexpectedEnd (expected : List TokenKind) (position : Position)
deriving DecidableEq, Repr

namespace GrammarFault

/-- What is wrong with the list of tokens. -/
def message : GrammarFault → String
  | unexpectedToken expected found =>
    "expected " ++ TokenKind.alternatives expected ++ " but found " ++ found.kind.phrase
      ++ " `" ++ found.spelling ++ "` at " ++ toString found.position
  | unexpectedEnd expected position =>
    "unexpected end of input at " ++ toString position ++ ": expected "
      ++ TokenKind.alternatives expected

/-- The code under which a fault is reported. -/
def code : GrammarFault → String
  | unexpectedToken .. => "E0201"
  | unexpectedEnd .. => "E0202"

/-- Where the fault is: at the token found, or where one is missing. -/
def position : GrammarFault → Position
  | unexpectedToken _ found => found.position
  | unexpectedEnd _ position => position

end GrammarFault

end BitwiseCircuit
