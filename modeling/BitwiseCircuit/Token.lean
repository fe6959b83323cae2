import BitwiseCircuit.Position

/-!
# Tokens

A token is a fragment of a circuit text that was recognised: its kind, how it
is spelled, and where it starts.

Main results:

- Definitions `TokenKind.tag` and `TokenKind.phrase` name a kind in a listing
  of tokens and in a sentence.
- Definition `TokenKind.alternatives` words a choice between kinds.
- Definition `Token.toString` writes a token as one line of a listing.
-/

namespace BitwiseCircuit

/-- The kinds of token of the circuit language. -/
inductive TokenKind where
  | number
  | wire
  | unaryKeyword
  | binaryKeyword
  | shiftKeyword
  | arrow
deriving DecidableEq, Repr

namespace TokenKind

/-- The name of a kind in a listing of tokens. -/
def tag : TokenKind → String
  | .number => "Number"
  | .wire => "Wire"
  | .unaryKeyword => "UnaryGateKeyword"
  | .binaryKeyword => "BinaryGateKeyword"
  | .shiftKeyword => "ShiftGateKeyword"
  | .arrow => "Arrow"

/-- The name of a kind in a sentence. -/
def phrase : TokenKind → String
  | .number => "number"
  | .wire => "wire"
  | .unaryKeyword => "unary gate keyword"
  | .binaryKeyword => "binary gate keyword"
  | .shiftKeyword => "shift gate keyword"
  | .arrow => "arrow"

/-- A choice between kinds in a sentence: commas between them, `or` before the
last, and `nothing` where there is none to choose. -/
def alternatives : List TokenKind → String
  | [] => "nothing"
  | [kind] => kind.phrase
  | [kind, last] => kind.phrase ++ " or " ++ last.phrase
  | kind :: others => kind.phrase ++ ", " ++ alternatives others

end TokenKind

/-- A recognised fragment: its kind, its characters, and where it starts. -/
structure Token where
  kind : TokenKind
  spelling : String
  position : Position
deriving DecidableEq, Repr

namespace Token

/-- A token in a listing: its kind, its spelling in quotes, and its position. -/
protected def toString (token : Token) : String :=
  "(" ++ token.kind.tag ++ " '" ++ token.spelling ++ "' " ++ toString token.position ++ ")"

instance : ToString Token := ⟨Token.toString⟩

/-- The place just past a token. -/
def finish (token : Token) : Position :=
  token.position.past token.spelling

end Token

end BitwiseCircuit
