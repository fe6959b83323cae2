/-!
# Positions in a text

A position names one character of a text by its line and its column, both
counted from one.  Positions are ordered as the characters of one text are: by
line, and within a line by column.

Main results:

- Definition `Position.next` moves over one character of a text, whatever it
  is; `Position.past` moves over a whole spelling that stays on its line.
- Theorems `Position.next_newline` and `Position.next_of_ne_newline` are the
  two ways a position moves.
-/

namespace BitwiseCircuit

/-- The place of one character of a text: its line and its column, both counted
from one. -/
structure Position where
  line : Nat
  column : Nat
deriving DecidableEq, Repr

namespace Position

/-- The place of the first character of any text. -/
def first : Position := ⟨1, 1⟩

instance : Inhabited Position := ⟨first⟩

/-- Earlier lines come first, and within a line earlier columns. -/
instance : Ord Position where
  compare p q := (compare p.line q.line).then (compare p.column q.column)

/-- A position is written as its line and its column with a colon between. -/
protected def toString (p : Position) : String :=
  toString p.line ++ ":" ++ toString p.column

instance : ToString Position := ⟨Position.toString⟩

/-! ## Moving through a text -/

/-- The place that follows once the character `c` at `p` has been read: the
start of the next line after a newline, the next column otherwise. -/
def next (p : Position) (c : Char) : Position :=
  if c = '\n' then ⟨p.line + 1, 1⟩ else ⟨p.line, p.column + 1⟩

@[simp]
theorem next_newline (p : Position) : p.next '\n' = ⟨p.line + 1, 1⟩ :=
  rfl

@[simp]
theorem next_of_ne_newline (p : Position) {c : Char} (h : c ≠ '\n') :
    p.next c = ⟨p.line, p.column + 1⟩ :=
  if_neg h

/-- The number of different columns: columns are held in 64 bits, and counting
past the last one starts again at zero. -/
def columnCount : Nat := 0x10000000000000000

/-- The place just past a spelling that starts at `p` and is counted as lying
on one line. -/
def past (p : Position) (spelling : String) : Position :=
  ⟨p.line, (p.column + spelling.length) % columnCount⟩

/-- Below the last column, `past` adds the length of the spelling to the column. -/
theorem past_of_lt {p : Position} {spelling : String}
    (h : p.column + spelling.length < columnCount) :
    p.past spelling = ⟨p.line, p.column + spelling.length⟩ := by
  rw [past, Nat.mod_eq_of_lt h]

end Position

end BitwiseCircuit
