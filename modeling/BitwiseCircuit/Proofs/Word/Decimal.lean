import Mathlib.Data.List.Induction
import Mathlib.Data.Nat.Digits.Defs
import BitwiseCircuit.Proofs.Word.Range

/-!
# Decimal notation

A decimal text may be of any length, and the number that it writes of any size.  Each digit counts
by its place, so the number is known only from the last digit on, while a word is read from the
first digit on and given up as soon as it gets too large.  Both give the same words.

Main results:

- Definition `Word.Writes` is decimal notation with one optional plus sign.
- Theorem `Word.ofDigitChars_eq_placeValue`: digits that are read one after another count by their
  places.
- Theorem `Word.writes_zeros_iff`: leading zeros do not count.
- Theorem `Word.ofDecimal?_eq_some_iff_writes`: a text is read as a word exactly if it writes the
  number of the word.
- Theorem `Word.inRange_iff_exists_writes`: the texts that are read as words.
-/

namespace BitwiseCircuit.Word

variable {text : String} {sign digits : List Char} {n : Nat} {word : Word}

/-- The number that digits write: a digit with `i` others after it counts `10 ^ i` times. -/
def placeValue (digits : List Char) : Nat :=
  Nat.ofDigits 10 (digits.reverse.map fun c => c.toNat - '0'.toNat)

/-- The text writes the number in decimal notation: one plus sign or none, and then digits, at
least one. -/
def Writes (text : String) (n : Nat) : Prop :=
  ∃ sign digits : List Char, text.toList = sign ++ digits ∧ (sign = [] ∨ sign = ['+']) ∧
    digits ≠ [] ∧ (∀ c ∈ digits, c.isDigit = true) ∧ n = placeValue digits

/-! ## Digits and their places -/

/-- Digits that are read one after another count by their places. -/
theorem ofDigitChars_eq_placeValue (digits : List Char) :
    Nat.ofDigitChars 10 digits 0 = placeValue digits := by
  induction digits using List.reverseRecOn with
  | nil => simp [placeValue]
  | append_singleton digits c ih =>
      calc Nat.ofDigitChars 10 (digits ++ [c]) 0
          = 10 * Nat.ofDigitChars 10 digits 0 + (c.toNat - '0'.toNat) := by
            rw [Nat.ofDigitChars_append, Nat.ofDigitChars_cons, Nat.ofDigitChars_nil]
        _ = (c.toNat - '0'.toNat) + 10 * placeValue digits := by rw [ih, Nat.add_comm]
        _ = placeValue (digits ++ [c]) := by
            simp [placeValue, Nat.ofDigits_cons]

private theorem placeValue_zeros (zeros : Nat) (digits : List Char) :
    placeValue (List.replicate zeros '0' ++ digits) = placeValue digits := by
  simp [placeValue, Nat.ofDigits_append_replicate_zero]

/-! ## Signs -/

/-- A plus sign is no digit, so it can only be the sign. -/
theorem digitsOf_eq (htext : text.toList = sign ++ digits) (hsign : sign = [] ∨ sign = ['+'])
    (hdigits : ∀ c ∈ digits, c.isDigit = true) : digitsOf text = digits := by
  rcases hsign with rfl | rfl
  · rw [List.nil_append] at htext
    unfold digitsOf
    split
    next rest hplus =>
      have hdigit := hdigits '+' (htext ▸ hplus ▸ List.mem_cons_self)
      exact absurd hdigit (by decide)
    next => exact htext
  · simp [digitsOf, htext]

private theorem exists_sign (text : String) :
    ∃ sign, (sign = [] ∨ sign = ['+']) ∧ text.toList = sign ++ digitsOf text := by
  unfold digitsOf
  split
  next rest hplus => exact ⟨['+'], .inr rfl, hplus⟩
  next => exact ⟨[], .inl rfl, rfl⟩

/-! ## Reading what is written -/

/-- A text writes a number if digits, at least one, follow its sign, and then their number. -/
theorem writes_iff : Writes text n ↔
    digitsOf text ≠ [] ∧ (∀ c ∈ digitsOf text, c.isDigit = true) ∧ n = decimal text := by
  rw [decimal, ofDigitChars_eq_placeValue]
  constructor
  · rintro ⟨sign, digits, htext, hsign, hne, hdigits, hn⟩
    rw [digitsOf_eq htext hsign hdigits]
    exact ⟨hne, hdigits, hn⟩
  · rintro ⟨hne, hdigits, hn⟩
    rcases exists_sign text with ⟨sign, hsign, htext⟩
    exact ⟨sign, digitsOf text, htext, hsign, hne, hdigits, hn⟩

private theorem writes_ofList_iff (hsign : sign = [] ∨ sign = ['+']) (hne : digits ≠ [])
    (hdigits : ∀ c ∈ digits, c.isDigit = true) :
    Writes (.ofList (sign ++ digits)) n ↔ n = placeValue digits := by
  rw [writes_iff, decimal, digitsOf_eq String.toList_ofList hsign hdigits,
    ofDigitChars_eq_placeValue, and_iff_right hne, and_iff_right hdigits]

/-- Leading zeros do not count. -/
theorem writes_zeros_iff (hsign : sign = [] ∨ sign = ['+']) (hne : digits ≠ [])
    (hdigits : ∀ c ∈ digits, c.isDigit = true) (zeros : Nat) :
    Writes (.ofList (sign ++ (List.replicate zeros '0' ++ digits))) n ↔
      Writes (.ofList (sign ++ digits)) n := by
  have hzeros : ∀ c ∈ List.replicate zeros '0' ++ digits, c.isDigit = true := by
    intro c hc
    rcases List.mem_append.mp hc with hc | hc
    · rw [List.eq_of_mem_replicate hc]
      rfl
    · exact hdigits c hc
  rw [writes_ofList_iff hsign (by simp [hne]) hzeros, placeValue_zeros,
    writes_ofList_iff hsign hne hdigits]

/-- The texts in range are those that write the number of a word. -/
theorem inRange_iff_exists_writes : InRange text ↔ ∃ n, Writes text n ∧ n < count := by
  simp only [InRange, writes_iff]
  constructor
  · rintro ⟨hne, hdigits, hlt⟩
    exact ⟨decimal text, ⟨hne, hdigits, rfl⟩, hlt⟩
  · rintro ⟨n, ⟨hne, hdigits, rfl⟩, hlt⟩
    exact ⟨hne, hdigits, hlt⟩

/-- The texts out of range write too large a number, if they write any. -/
theorem not_inRange_iff : ¬ InRange text ↔ ∀ n, Writes text n → count ≤ n := by
  rw [inRange_iff_exists_writes]
  simp only [not_exists, not_and, Nat.not_lt]

/-- A text is read as a word exactly if it writes the number of the word. -/
theorem ofDecimal?_eq_some_iff_writes : ofDecimal? text = some word ↔ Writes text word.toNat := by
  rw [ofDecimal?_eq_some_iff, writes_iff, eq_comm (a := word.toNat)]

example : ofDecimal? "+0065535" = some 65535 ∧ ofDecimal? "0065536" = none := by
  decide +kernel

end BitwiseCircuit.Word
