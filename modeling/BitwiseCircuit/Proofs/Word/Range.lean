import BitwiseCircuit.Proofs.Word.Arithmetic

/-!
# Which decimal texts are words

A decimal text is read as a word if it writes the number of one, and this can be decided from the
text alone: from its characters, and from the number that its digits make.

Main results:

- Definition `Word.InRange` describes the decimal texts that write a number below 65536.
- Theorem `Word.exists_ofDecimal?_iff`: they are those that are read as words.
-/

namespace BitwiseCircuit.Word

variable {text : String}

/-- After one optional plus sign, the text has digits only, at least one, and the number that they
write is that of a word. -/
def InRange (text : String) : Prop :=
  digitsOf text ≠ [] ∧ (∀ c ∈ digitsOf text, c.isDigit = true) ∧ decimal text < count

instance (text : String) : Decidable (InRange text) :=
  decidable_of_iff (digitsOf text ≠ [] ∧ (digitsOf text).all Char.isDigit = true ∧
    decimal text < count) (by rw [InRange, List.all_eq_true])

/-- A decimal text is read as a word exactly if it is in range. -/
theorem exists_ofDecimal?_iff : (∃ word, ofDecimal? text = some word) ↔ InRange text := by
  simp only [ofDecimal?_eq_some_iff]
  constructor
  · rintro ⟨word, hne, hdigits, hnumber⟩
    exact ⟨hne, hdigits, hnumber ▸ word.isLt⟩
  · rintro ⟨hne, hdigits, hlt⟩
    refine ⟨truncate (decimal text), hne, hdigits, ?_⟩
    rw [toNat_truncate, Nat.mod_eq_of_lt hlt]

example : InRange "+0065535" ∧ ¬ InRange "0065536" ∧ ¬ InRange "+" := by
  decide +kernel

end BitwiseCircuit.Word
