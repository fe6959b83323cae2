/-!
# Lines of a text

A line ends before a newline, or before a carriage return and a newline.  The
last line needs no newline; when it has none, a carriage return at its end
belongs to it.  A newline at the very end of a text opens no further line.

Main results:

- Definition `lines` cuts a text into its lines.
- Definition `lineAt` finds one line without cutting the others, and Theorem
  `lineAt_eq_lines` says that it is the line `lines` gives.
-/

namespace BitwiseCircuit.Text

/-- The lines of a text, without what ends them. -/
def lines : List Char → List (List Char)
  | [] => []
  | '\n' :: rest => [] :: lines rest
  | '\r' :: '\n' :: rest => [] :: lines rest
  | c :: rest =>
    match lines rest with
    | [] => [[c]]
    | line :: others => (c :: line) :: others

/-- A line that a newline ends, without the carriage return that may stand
before the newline. -/
def dropReturn (line : List Char) : List Char :=
  if line.getLast? = some '\r' then line.dropLast else line

/-- The first line of a text; it is empty if the text is. -/
def firstLine (text : List Char) : List Char :=
  let line := text.takeWhile (· != '\n')
  match text.dropWhile (· != '\n') with
  | [] => line
  | _ :: _ => dropReturn line

/-- What follows the first newline of a text. -/
def afterLine (text : List Char) : List Char :=
  (text.dropWhile (· != '\n')).tail

/-- The line with a given number, counted from zero; it is empty where the text
has no such line. -/
def lineAt : Nat → List Char → List Char
  | _, [] => []
  | 0, text => firstLine text
  | n + 1, text => lineAt n (afterLine text)

/-! ## The two definitions agree -/

private theorem dropReturn_cons_cons (c d : Char) (line : List Char) :
    dropReturn (c :: d :: line) = c :: dropReturn (d :: line) := by
  simp only [dropReturn, List.getLast?_cons_cons, List.dropLast_cons_cons]
  split <;> rfl

/-- Cutting off the first line of a text that has one leaves the others. -/
theorem lines_eq_firstLine_cons : {text : List Char} → text ≠ [] →
    lines text = firstLine text :: lines (afterLine text)
  | [], h => absurd rfl h
  | [c], _ => by
    by_cases hn : c = '\n'
    · subst hn; rfl
    · have hne : (c != '\n') = true := by simpa using hn
      simp [lines, firstLine, afterLine, hne]
  | c :: d :: rest, _ => by
    have ih := @lines_eq_firstLine_cons (d :: rest) (by simp)
    by_cases hn : c = '\n'
    · subst hn
      simp [lines, firstLine, afterLine, dropReturn]
    · have hne : (c != '\n') = true := by simpa using hn
      by_cases hd : d = '\n'
      · subst hd
        by_cases hr : c = '\r'
        · subst hr
          simp [lines, firstLine, afterLine, dropReturn]
        · simp [lines, firstLine, afterLine, dropReturn, hr, hne]
      · have hde : (d != '\n') = true := by simpa using hd
        have hlines : lines (c :: d :: rest) =
            (c :: firstLine (d :: rest)) :: lines (afterLine (d :: rest)) := by
          rw [lines]
          · rw [ih]
          · exact hn
          · intro r _ h
            exact hd (by simpa using (List.cons.inj h).1)
        rw [hlines]
        simp only [firstLine, afterLine, List.takeWhile_cons, List.dropWhile_cons, hne, hde,
          if_true]
        cases rest.dropWhile (· != '\n') with
        | nil => rfl
        | cons e others => simp [dropReturn_cons_cons]

/-- `lineAt` finds the line with that number among all lines. -/
theorem lineAt_eq_lines : (n : Nat) → (text : List Char) →
    lineAt n text = ((lines text)[n]?).getD []
  | n, [] => by cases n <;> simp [lineAt, lines]
  | 0, c :: rest => by
    rw [lines_eq_firstLine_cons (by simp)]
    simp [lineAt]
  | n + 1, c :: rest => by
    rw [lines_eq_firstLine_cons (by simp)]
    simpa [lineAt] using lineAt_eq_lines n (afterLine (c :: rest))

end BitwiseCircuit.Text
