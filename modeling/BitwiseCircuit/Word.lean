/-!
# Signal words

Every signal carries a word of sixteen bits.  Words are kept as bit vectors, so
that the gates are the bit-vector operations; decimal text becomes a word only
if its value fits.

Main results:

- Definition `Word.truncate` keeps the low sixteen bits of a number, which is
  the number modulo 65536 by Theorem `Word.toNat_truncate`.
- Definition `Word.ofDecimal?` reads a word from decimal text.
-/

namespace BitwiseCircuit

/-- A word of sixteen bits. -/
abbrev Word := BitVec 16

namespace Word

/-- The number of different words. -/
def count : Nat := 65536

/-- The word made of the low sixteen bits of a number. -/
def truncate (n : Nat) : Word :=
  BitVec.ofNat 16 n

@[simp]
theorem toNat_truncate (n : Nat) : (truncate n).toNat = n % count :=
  BitVec.toNat_ofNat n 16

/-- Truncating a word's own number gives the word back. -/
@[simp]
theorem truncate_toNat (w : Word) : truncate w.toNat = w :=
  by simp [truncate]

/-! ## Reading decimal text -/

/-- The value of the digits read so far followed by one more character; `none`
if that is no digit, or if the value no longer fits in a word. -/
def appendDigit? (value : Nat) (c : Char) : Option Nat :=
  let longer := 10 * value + (c.toNat - '0'.toNat)
  if c.isDigit && longer < count then some longer else none

/-- The value of a text of digits, if every character is one and it fits in a
word; leading zeros are allowed, and an empty text has no value. -/
def digitsValue? : List Char → Option Nat
  | [] => none
  | digits => digits.foldlM appendDigit? 0

/-- The word written by a decimal text: one optional plus sign, then at least
one ASCII digit, with a value below 65536. -/
def ofDecimal? (text : String) : Option Word :=
  let value? :=
    match text.toList with
    | '+' :: digits => digitsValue? digits
    | digits => digitsValue? digits
  value?.map truncate

/-- The decimal text of a word. -/
def toDecimal (w : Word) : String :=
  toString w.toNat

end Word

end BitwiseCircuit
