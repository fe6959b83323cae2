import BitwiseCircuit.Token

/-!
# Lexicons

A lexicon lists the kinds of token that a text may hold, each with the shape of
its spellings.  All rules of a lexicon are tried on a fragment at once, one
character at a time, so a shape says which character may follow a spelling that
it already fits, and when a spelling is complete.

Main results:

- Definitions `Shape.admits` and `Shape.completes` are these two tests.
- Definition `Lexicon.standard` is the lexicon of the circuit language.
-/

namespace BitwiseCircuit

/-- The shape of the spellings of one kind of token. -/
inductive Shape where
  /-- One or more ASCII digits. -/
  | digits
  /-- One or more small ASCII letters. -/
  | letters
  /-- One of the listed words. -/
  | oneOf (words : List String)
deriving DecidableEq, Repr

namespace Shape

/-- Whether a spelling that fits the shape so far still fits it with one more
character; a word is fitted by each of its beginnings. -/
def admits (shape : Shape) (spelling : String) (c : Char) : Bool :=
  match shape with
  | .digits => c.isDigit
  | .letters => c.isLower
  | .oneOf words => words.any fun word => (spelling.push c).toList.isPrefixOf word.toList

/-- Whether a spelling that fits the shape so far may end here. -/
def completes (shape : Shape) (spelling : String) : Bool :=
  match shape with
  | .digits | .letters => !spelling.isEmpty
  | .oneOf words => words.contains spelling

end Shape

/-- A kind of token together with the shape of its spellings. -/
structure Rule where
  kind : TokenKind
  shape : Shape
deriving DecidableEq, Repr

/-- The rules that a text is read by. -/
abbrev Lexicon := List Rule

/-- The lexicon of the circuit language. -/
def Lexicon.standard : Lexicon :=
  [⟨.number, .digits⟩,
   ⟨.wire, .letters⟩,
   ⟨.unaryKeyword, .oneOf ["NOT"]⟩,
   ⟨.binaryKeyword, .oneOf ["AND", "OR"]⟩,
   ⟨.shiftKeyword, .oneOf ["LSHIFT", "RSHIFT"]⟩,
   ⟨.arrow, .oneOf ["->"]⟩]

end BitwiseCircuit
