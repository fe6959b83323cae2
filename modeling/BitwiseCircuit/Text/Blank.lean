/-!
# Blank characters

The characters with the Unicode property `White_Space`.  They separate the
fragments of a circuit text, and the ASCII blanks are only some of them.

Main results:

- Definition `isBlank` decides the property from its table of code points.
- Theorem `isBlank_newline`: a newline is blank, so no fragment crosses the end of a line.
-/

namespace BitwiseCircuit.Text

/-- The code points with the property `White_Space`, as ranges that include
both ends. -/
def blankRanges : List (Nat × Nat) :=
  [(0x0009, 0x000D), (0x0020, 0x0020), (0x0085, 0x0085), (0x00A0, 0x00A0),
   (0x1680, 0x1680), (0x2000, 0x200A), (0x2028, 0x2029), (0x202F, 0x202F),
   (0x205F, 0x205F), (0x3000, 0x3000)]

/-- Whether a character has the property `White_Space`. -/
def isBlank (c : Char) : Bool :=
  blankRanges.any fun range => range.1 ≤ c.toNat && c.toNat ≤ range.2

/-- A newline is blank, so that no fragment crosses the end of a line. -/
@[simp]
theorem isBlank_newline : isBlank '\n' = true := by
  decide

/-- The sign that opens a comment is not blank. -/
@[simp]
theorem isBlank_hash : isBlank '#' = false := by
  decide

end BitwiseCircuit.Text
