import BitwiseCircuit.Notice
import BitwiseCircuit.Proofs.Text.Rows

/-!
# The rows of a notice

A notice about a place has a heading and the four rows of an excerpt.  None of them contains a
newline as long as the message has none, so that the written notice has five lines.

Main results:

- Theorem `Notice.newline_not_mem_rows`: the rows of a notice have no newlines.
- Theorem `Notice.length_lines_render`: so a notice has as many lines as rows.
- Theorem `Notice.rows_eq`: what the rows of a notice about a place are.
-/

namespace BitwiseCircuit

/-! ## Rows without newlines -/

/-- Parts without newlines stay so when they are joined. -/
theorem newline_not_mem_intercalate {separator : List Char} {parts : List (List Char)}
    (hseparator : '\n' ∉ separator) (hparts : ∀ part ∈ parts, '\n' ∉ part) :
    '\n' ∉ separator.intercalate parts := by
  induction parts with
  | nil => simp
  | cons part parts ih =>
      rcases List.forall_mem_cons.mp hparts with ⟨hpart, hparts⟩
      cases parts with
      | nil => simpa using hpart
      | cons second others =>
          rw [List.intercalate_cons_cons]
          simp only [List.mem_append, not_or]
          exact ⟨⟨hpart, hseparator⟩, ih hparts⟩

namespace TokenKind

/-- The phrase for a kind has no newline. -/
theorem newline_not_mem_phrase (kind : TokenKind) : '\n' ∉ kind.phrase.toList := by
  cases kind <;> simp [phrase]

/-- A list of alternatives has no newline. -/
theorem newline_not_mem_alternatives (kinds : List TokenKind) :
    '\n' ∉ (alternatives kinds).toList := by
  fun_induction alternatives kinds with
  | case1 => simp
  | case2 kind => exact kind.newline_not_mem_phrase
  | case3 kind last => simp [newline_not_mem_phrase]
  | case4 kind others _ _ ih => simp [newline_not_mem_phrase, ih]

end TokenKind

namespace Text

/-- A line of a text has no newline. -/
theorem newline_not_mem_lineAt (n : Nat) (chars : List Char) : '\n' ∉ lineAt n chars := by
  rw [lineAt_eq_lines]
  cases hline : (lines chars)[n]? with
  | none => simp
  | some line => exact (of_mem_lines (List.mem_of_getElem? hline)).2

end Text

/-! ## Rows of notices -/

namespace Notice

variable {notice : Notice} {source : String} {place : Position} {line : List Char}

/-- The marker is as long as what stands before the column, or as the line if that is shorter. -/
theorem length_marker (line : List Char) (column : Nat) :
    (marker line column).length = min (column - 1) line.length := by
  rw [marker, List.length_map, List.length_take]

/-- What stands before the caret is blank. -/
theorem of_mem_marker {column : Nat} {c : Char} (h : c ∈ marker line column) :
    c = ' ' ∨ c = '\t' := by
  rcases List.mem_map.mp h with ⟨d, _, rfl⟩
  split_ifs
  · exact .inr rfl
  · exact .inl rfl

/-- No row of an excerpt has a newline. -/
theorem newline_not_mem_excerpt (source : String) (place : Position) :
    ∀ row ∈ excerpt source place, '\n' ∉ row.toList := by
  have hnumber := not_mem_toString_nat (c := '\n') (by decide) place.line
  have hplace := place.newline_not_mem_toString
  have hline := Text.newline_not_mem_lineAt (place.line - 1) source.toList
  have hmarker : '\n' ∉ marker (Text.lineAt (place.line - 1) source.toList) place.column :=
    fun hmem => by rcases of_mem_marker hmem with h | h <;> cases h
  simp only [excerpt, List.mem_cons, List.not_mem_nil, or_false]
  rintro row (rfl | rfl | rfl | rfl)
  all_goals simp_all [List.mem_replicate]

/-- A notice has no newlines in its rows if its code and its message have none. -/
theorem newline_not_mem_rows (hcode : ∀ code, notice.code = some code → '\n' ∉ code.toList)
    (hmessage : '\n' ∉ notice.message.toList) :
    ∀ row ∈ notice.rows source, '\n' ∉ row.toList := by
  rcases notice with ⟨severity, code, message, position⟩
  intro row hrow
  rcases List.mem_cons.mp hrow with rfl | hrow
  · cases severity <;> cases code <;> simp_all [heading, Severity.label]
  · cases position with
    | none => cases hrow
    | some place => exact newline_not_mem_excerpt source place row hrow

/-- A notice has as many lines as rows. -/
theorem length_lines_render (h : ∀ row ∈ notice.rows source, '\n' ∉ row.toList) :
    (Text.lines (notice.render source).toList).length = (notice.rows source).length :=
  Text.length_lines_join id h

/-- A notice about a place in the text quotes the line of the place. -/
theorem rows_eq (hplace : notice.position = some place)
    (hline : (Text.lines source.toList)[place.line - 1]? = some line ∨ source = "" ∧ line = []) :
    notice.rows source =
      [notice.heading,
        String.ofList (List.replicate (toString place.line).length ' ') ++ "--> " ++ toString place,
        String.ofList (List.replicate (toString place.line).length ' ') ++ " |",
        toString place.line ++ " | " ++ String.ofList line,
        String.ofList (List.replicate (toString place.line).length ' ') ++ " | " ++
          String.ofList (marker line place.column) ++ "^"] := by
  have hquoted : Text.lineAt (place.line - 1) source.toList = line := by
    rw [Text.lineAt_eq_lines]
    rcases hline with hline | ⟨rfl, rfl⟩
    · rw [hline, Option.getD_some]
    · simp [Text.lines]
  rw [rows, hplace, Option.map_some, Option.getD_some, excerpt, hquoted]

end Notice

end BitwiseCircuit
