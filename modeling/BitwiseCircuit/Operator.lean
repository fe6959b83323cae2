import BitwiseCircuit.Word

/-!
# Operators

The operators of the circuit language, each with its keyword and with what it
does to words.  There are three sorts, told apart by their operands: one wire,
two wires, or a wire and a number of bits.

Main results:

- Theorems `UnaryOp.ofKeyword?_eq_some_iff`, `BinaryOp.ofKeyword?_eq_some_iff`
  and `ShiftOp.ofKeyword?_eq_some_iff`: a keyword names the operator that is
  written by it, and nothing else does.
- Definitions `UnaryOp.apply`, `BinaryOp.apply` and `ShiftOp.apply` give the
  operators their meaning on words.
-/

namespace BitwiseCircuit

/-! ## One operand -/

/-- The operators with one operand. -/
inductive UnaryOp where
  | not
deriving DecidableEq, Repr

namespace UnaryOp

/-- How an operator is written. -/
def keyword : UnaryOp → String
  | .not => "NOT"

/-- The operator that is written by a word, if there is one. -/
def ofKeyword? : String → Option UnaryOp
  | "NOT" => some .not
  | _ => none

/-- Complement turns over every bit. -/
def apply : UnaryOp → Word → Word
  | .not, x => ~~~x

/-- A word names an operator exactly if it is the operator's keyword. -/
theorem ofKeyword?_eq_some_iff {word : String} {op : UnaryOp} :
    ofKeyword? word = some op ↔ word = op.keyword := by
  constructor
  · unfold ofKeyword?
    split <;> simp_all [keyword]
  · rintro rfl
    cases op
    rfl

end UnaryOp

/-! ## Two operands -/

/-- The operators that work on two words bit by bit. -/
inductive BinaryOp where
  | and
  | or
deriving DecidableEq, Repr

namespace BinaryOp

/-- How an operator is written. -/
def keyword : BinaryOp → String
  | .and => "AND"
  | .or => "OR"

/-- The operator that is written by a word, if there is one. -/
def ofKeyword? : String → Option BinaryOp
  | "AND" => some .and
  | "OR" => some .or
  | _ => none

/-- Conjunction and disjunction, bit by bit. -/
def apply : BinaryOp → Word → Word → Word
  | .and, x, y => x &&& y
  | .or, x, y => x ||| y

/-- A word names an operator exactly if it is the operator's keyword. -/
theorem ofKeyword?_eq_some_iff {word : String} {op : BinaryOp} :
    ofKeyword? word = some op ↔ word = op.keyword := by
  constructor
  · unfold ofKeyword?
    split <;> cases op <;> simp_all [keyword]
  · rintro rfl
    cases op <;> rfl

end BinaryOp

/-! ## Shifts -/

/-- The operators that move the bits of a word. -/
inductive ShiftOp where
  | left
  | right
deriving DecidableEq, Repr

namespace ShiftOp

/-- How an operator is written. -/
def keyword : ShiftOp → String
  | .left => "LSHIFT"
  | .right => "RSHIFT"

/-- The operator that is written by a word, if there is one. -/
def ofKeyword? : String → Option ShiftOp
  | "LSHIFT" => some .left
  | "RSHIFT" => some .right
  | _ => none

/-- Shifts move in zeros and drop the bits moved out, so that sixteen places or
more leave nothing. -/
def apply : ShiftOp → Word → Word → Word
  | .left, x, amount => x <<< amount.toNat
  | .right, x, amount => x >>> amount.toNat

/-- A word names an operator exactly if it is the operator's keyword. -/
theorem ofKeyword?_eq_some_iff {word : String} {op : ShiftOp} :
    ofKeyword? word = some op ↔ word = op.keyword := by
  constructor
  · unfold ofKeyword?
    split <;> cases op <;> simp_all [keyword]
  · rintro rfl
    cases op <;> rfl

end ShiftOp

end BitwiseCircuit
