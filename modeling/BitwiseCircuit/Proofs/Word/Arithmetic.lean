import Mathlib.Algebra.Group.Nat.Defs
import BitwiseCircuit.Operator

/-!
# Words as numbers

A word is a number below 65536, and the operators are functions of such numbers.
This file gives these functions in ordinary arithmetic, without bits moved out and
without wrapping, and the number that a decimal text writes.

Main results:

- Definitions `UnaryOp.calculate`, `BinaryOp.calculate` and `ShiftOp.calculate`: the
  operators on numbers.
- Theorems `UnaryOp.toNat_apply`, `BinaryOp.toNat_apply` and `ShiftOp.toNat_apply`: on
  words the operators compute these functions.
- Theorem `Word.foldlM_appendDigit?_eq_some_iff`: reading stops as soon as the number no longer
  fits in a word, and as no later digit makes it smaller, stopping early loses no word.
- Theorem `Word.ofDecimal?_eq_some_iff`: a word that is read from a decimal text is the
  number that the text writes.
-/

namespace BitwiseCircuit

/-! ## Operators -/

/-- The operators with one operand on numbers: complement is what the number lacks to
the greatest word. -/
def UnaryOp.calculate : UnaryOp → Nat → Nat
  | .not, a => 65535 - a

/-- The operators on two numbers, bit by bit. -/
def BinaryOp.calculate : BinaryOp → Nat → Nat → Nat
  | .and, a, b => a &&& b
  | .or, a, b => a ||| b

/-- The shifts on numbers: doubling `n` times with what fits in a word kept, and halving
`n` times with remainders dropped. -/
def ShiftOp.calculate : ShiftOp → Nat → Nat → Nat
  | .left, a, n => a * 2 ^ n % 65536
  | .right, a, n => a / 2 ^ n

/-- The number of a complement is calculated from that of its operand. -/
theorem UnaryOp.toNat_apply (op : UnaryOp) (x : Word) :
    (op.apply x).toNat = op.calculate x.toNat := by
  cases op with
  | not => exact BitVec.toNat_not

/-- The number of a conjunction or disjunction is calculated from those of its operands. -/
theorem BinaryOp.toNat_apply (op : BinaryOp) (x y : Word) :
    (op.apply x y).toNat = op.calculate x.toNat y.toNat := by
  cases op with
  | and => exact BitVec.toNat_and x y
  | or => exact BitVec.toNat_or x y

/-- The number of a shifted word is calculated from its own and that of the amount. -/
theorem ShiftOp.toNat_apply (op : ShiftOp) (x amount : Word) :
    (op.apply x amount).toNat = op.calculate x.toNat amount.toNat := by
  cases op with
  | left => rw [apply, calculate, BitVec.toNat_shiftLeft, Nat.shiftLeft_eq]
  | right => rw [apply, calculate, BitVec.toNat_ushiftRight, Nat.shiftRight_eq_div_pow]

/-! ## Decimal text -/

namespace Word

/-- What a decimal text has after one optional plus sign. -/
def digitsOf (text : String) : List Char :=
  match text.toList with
  | '+' :: digits => digits
  | digits => digits

/-- The number that a decimal text writes. -/
def decimal (text : String) : Nat :=
  Nat.ofDigitChars 10 (digitsOf text) 0

private theorem ofDecimal?_eq (text : String) :
    ofDecimal? text = (digitsValue? (digitsOf text)).map truncate := by
  unfold ofDecimal? digitsOf
  split <;> simp [*]

/-- Further digits make no number smaller. -/
theorem le_ofDigitChars (digits : List Char) (value : Nat) :
    value ≤ Nat.ofDigitChars 10 digits value := by
  rw [Nat.ofDigitChars_eq_ofDigitChars_zero]
  exact Nat.le_trans (Nat.le_mul_of_pos_left value (Nat.pow_pos (by decide))) (Nat.le_add_right _ _)

/-- Characters can be read as further digits exactly if they are digits and the number that they
make still fits; this number is what is read. -/
theorem foldlM_appendDigit?_eq_some_iff {digits : List Char} {value longer : Nat}
    (hvalue : value < count) : digits.foldlM appendDigit? value = some longer ↔
      (∀ c ∈ digits, c.isDigit = true) ∧ Nat.ofDigitChars 10 digits value = longer ∧
        longer < count := by
  induction digits generalizing value with
  | nil =>
      rw [List.foldlM_nil, Nat.ofDigitChars_nil]
      constructor
      · rintro ⟨⟩
        exact ⟨by simp, rfl, hvalue⟩
      · rintro ⟨-, rfl, -⟩
        rfl
  | cons c digits ih =>
      have hle := le_ofDigitChars digits (10 * value + (c.toNat - '0'.toNat))
      rw [List.foldlM_cons, Nat.ofDigitChars_cons, List.forall_mem_cons]
      by_cases hc : c.isDigit = true ∧ 10 * value + (c.toNat - '0'.toNat) < count
      · have hnext : appendDigit? value c = some (10 * value + (c.toNat - '0'.toNat)) := by
          simpa [appendDigit?, hc.1] using hc.2
        rw [hnext, Option.bind_eq_bind, Option.bind_some, ih hc.2, and_iff_right hc.1]
      · -- a number that no longer fits cannot be made to fit by further digits
        have hnext : appendDigit? value c = none := by
          simpa [appendDigit?] using hc
        rw [hnext]
        refine iff_of_false (by simp) ?_
        rintro ⟨⟨hdigit, -⟩, rfl, hfits⟩
        exact hc ⟨hdigit, Nat.lt_of_le_of_lt hle hfits⟩

/-- Digits are read as the number that they write, if it is below the number of words. -/
theorem digitsValue?_eq_some_iff {digits : List Char} {value : Nat} :
    digitsValue? digits = some value ↔ digits ≠ [] ∧ (∀ c ∈ digits, c.isDigit = true) ∧
      Nat.ofDigitChars 10 digits 0 = value ∧ value < count := by
  cases digits with
  | nil => simp [digitsValue?]
  | cons c digits =>
      rw [digitsValue?, foldlM_appendDigit?_eq_some_iff (by decide),
        and_iff_right (List.cons_ne_nil c digits)]
      exact List.cons_ne_nil c digits

/-- A decimal text is read as a word exactly if it has digits only, at least one, and writes the
number of the word. -/
theorem ofDecimal?_eq_some_iff {text : String} {word : Word} : ofDecimal? text = some word ↔
    digitsOf text ≠ [] ∧ (∀ c ∈ digitsOf text, c.isDigit = true) ∧ decimal text = word.toNat := by
  rw [ofDecimal?_eq, Option.map_eq_some_iff, decimal]
  simp only [digitsValue?_eq_some_iff]
  constructor
  · rintro ⟨value, ⟨hne, hdigits, hvalue, hfits⟩, rfl⟩
    rw [toNat_truncate, Nat.mod_eq_of_lt hfits]
    exact ⟨hne, hdigits, hvalue⟩
  · rintro ⟨hne, hdigits, hvalue⟩
    exact ⟨word.toNat, ⟨hne, hdigits, hvalue, word.isLt⟩, truncate_toNat word⟩

/-- A word that is read from a decimal text is the number that the text writes. -/
theorem toNat_of_ofDecimal? {text : String} {word : Word} (h : ofDecimal? text = some word) :
    word.toNat = decimal text :=
  (ofDecimal?_eq_some_iff.mp h).2.2.symm

end Word

end BitwiseCircuit
