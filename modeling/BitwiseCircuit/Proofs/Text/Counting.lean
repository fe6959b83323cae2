import Mathlib.Data.List.DropRight
import BitwiseCircuit.Proofs.Text.Runs

/-!
# Places by counting

A place moves along while a text is read.  It can as well be counted afterwards, from all
characters that have been read: by the newlines among them, and by the characters since the
last newline.

Main results:

- Theorems `Position.lt_iff` and `Position.le_iff`: places are ordered by line, then by column.
- Definition `Text.placeAfter` counts a place, and Theorem `Text.placeAfter_eq`: reading leads to
  the same place.
- Theorem `Text.placeAfter_lt`: reading on leads to later places.
-/

namespace BitwiseCircuit

variable {p q r here : Position} {c : Char} {letters more read : List Char}

/-! ## The order of places -/

namespace Position

instance : LT Position := ltOfOrd

instance : LE Position := leOfOrd

/-- One place comes before another on an earlier line, or in an earlier column of the same line. -/
theorem lt_iff : p < q ↔ p.line < q.line ∨ p.line = q.line ∧ p.column < q.column := by
  change (compare p.line q.line).then (compare p.column q.column) = .lt ↔ _
  rw [Ordering.then_eq_lt, Nat.compare_eq_lt, Nat.compare_eq_eq, Nat.compare_eq_lt]

/-- One place comes no later than another by line and, on the same line, by column. -/
theorem le_iff : p ≤ q ↔ p.line < q.line ∨ p.line = q.line ∧ p.column ≤ q.column := by
  change ((compare p.line q.line).then (compare p.column q.column)).isLE = true ↔ _
  rw [Ordering.isLE_then_iff_or, Nat.compare_eq_lt, Nat.compare_eq_eq, Nat.isLE_compare]

/-- A place comes no later than itself. -/
theorem le_refl (p : Position) : p ≤ p :=
  le_iff.mpr (.inr ⟨rfl, Nat.le_refl _⟩)

/-- A place that comes before another comes no later. -/
theorem le_of_lt (h : p < q) : p ≤ q := by
  rw [lt_iff] at h
  rw [le_iff]
  omega

/-- The two orders of places compose. -/
theorem lt_of_lt_of_le (hpq : p < q) (hqr : q ≤ r) : p < r := by
  rw [lt_iff] at hpq ⊢
  rw [le_iff] at hqr
  omega

/-- The order of places is transitive. -/
theorem le_trans (hpq : p ≤ q) (hqr : q ≤ r) : p ≤ r := by
  rw [le_iff] at hpq hqr ⊢
  omega

/-- No place comes before itself. -/
theorem lt_irrefl (p : Position) : ¬ p < p := by
  rw [lt_iff]
  omega

/-- Reading a character moves forward. -/
theorem lt_next (here : Position) (c : Char) : here < here.next c := by
  by_cases hc : c = '\n'
  · subst hc
    exact lt_iff.mpr (.inl (Nat.lt_succ_self _))
  · rw [next_of_ne_newline here hc]
    exact lt_iff.mpr (.inr ⟨rfl, Nat.lt_succ_self _⟩)

/-- Reading moves forward or, where nothing is read, not at all. -/
theorem le_after (here : Position) (letters : List Char) : here ≤ here.after letters := by
  induction letters generalizing here with
  | nil => exact le_refl here
  | cons c letters ih => exact le_trans (le_of_lt (lt_next here c)) (ih _)

/-- Reading something moves forward. -/
theorem lt_after (here : Position) (hne : letters ≠ []) : here < here.after letters := by
  rcases List.exists_cons_of_ne_nil hne with ⟨c, rest, rfl⟩
  exact lt_of_lt_of_le (lt_next here c) (le_after _ rest)

end Position

/-! ## Counting -/

namespace Text

/-- The place that follows the characters `read` of a text: on the line after as many newlines
as there are, in the column after as many characters as follow the last of them. -/
def placeAfter (read : List Char) : Position :=
  ⟨1 + read.count '\n', 1 + (read.rtakeWhile (· != '\n')).length⟩

/-- One more character moves a counted place on. -/
theorem placeAfter_concat (read : List Char) (c : Char) :
    placeAfter (read ++ [c]) = (placeAfter read).next c := by
  by_cases hc : c = '\n'
  · subst hc
    simp [placeAfter, Nat.add_assoc]
  · simp [placeAfter, hc, Nat.add_assoc]

/-- Reading some characters leads to the place that is counted. -/
theorem placeAfter_eq (read : List Char) : placeAfter read = Position.first.after read := by
  induction read using List.reverseRecOn with
  | nil => rfl
  | append_singleton read c ih =>
      rw [placeAfter_concat, ih, Position.after_append]
      rfl

/-- More characters move a counted place on. -/
theorem placeAfter_append (read more : List Char) :
    placeAfter (read ++ more) = (placeAfter read).after more := by
  rw [placeAfter_eq, placeAfter_eq, Position.after_append]

/-- Reading on leads to later places. -/
theorem placeAfter_lt (read : List Char) (hne : more ≠ []) :
    placeAfter read < placeAfter (read ++ more) := by
  rw [placeAfter_append]
  exact Position.lt_after _ hne

end Text

end BitwiseCircuit
