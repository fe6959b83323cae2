import BitwiseCircuit.Token

/-!
# Faults in the spelling of a text

What can be wrong with a fragment of a text that should be one token.

Main results:

- Definitions `TokenFault.message`, `TokenFault.code` and `TokenFault.position`
  say what is wrong, under which code it is reported, and where it is.
-/

namespace BitwiseCircuit

/-- A fragment that is no token. -/
inductive TokenFault where
  /-- The whole fragment still fits several kinds. -/
  | ambiguous (position : Position) (spelling : String) (kinds : List TokenKind)
  /-- The character `found`, read after `spelling`, fits no kind any more. -/
  | noMatch (position : Position) (found : Char) (spelling : String)
  /-- The fragment ends before the one kind that it fits is complete. -/
  | unterminated (position : Position) (spelling : String) (kind : TokenKind)
deriving DecidableEq, Repr

namespace TokenFault

/-- What is wrong with the fragment. -/
def message : TokenFault → String
  | ambiguous position spelling kinds =>
    "ambiguous token `" ++ spelling ++ "` at " ++ toString position ++ ": could be "
      ++ TokenKind.alternatives kinds
  | noMatch position found spelling =>
    "no token matches `" ++ spelling.push found ++ "` at " ++ toString position
  | unterminated position spelling kind =>
    "incomplete " ++ kind.phrase ++ " `" ++ spelling ++ "` at " ++ toString position

/-- The code under which a fault is reported. -/
def code : TokenFault → String
  | ambiguous .. => "E0101"
  | noMatch .. => "E0102"
  | unterminated .. => "E0103"

/-- Where the fault is: at the start of the fragment, or at the character that
no kind accepts. -/
def position : TokenFault → Position
  | ambiguous position .. | noMatch position .. | unterminated position .. => position

end TokenFault

end BitwiseCircuit
