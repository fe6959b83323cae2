import Mathlib.Data.Nat.Log
import BitwiseCircuit.Proofs.Notice.Rows

/-!
# Where a notice points

The excerpt of a notice has to line up whatever the place is: line numbers may have any number of
digits, lines may have tabs, and the place may be past the end of its line or of the whole text.

Main results:

- Theorem `length_toString_nat`: how wide a number is written.
- Definition `Notice.Aligned` says how the rows of an excerpt stand below each other.
- Theorem `Notice.render_aligned`: a notice about a place has five rows, and the last three of them
  are aligned.
-/

namespace BitwiseCircuit

/-- A number is written with as many characters as it has decimal digits. -/
theorem length_toString_nat (n : Nat) : (toString n).length = Nat.log 10 n + 1 := by
  have hpos : 0 < n.repr.length := Nat.length_repr_pos
  apply le_antisymm
  · exact (Nat.length_repr_le_iff (Nat.succ_pos _)).mpr (Nat.lt_pow_succ_log_self (by decide) n)
  · exact Nat.log_lt_of_lt_pow' hpos.ne' ((Nat.length_repr_le_iff hpos).mp (le_refl _))

namespace Notice

variable {notice : Notice} {place : Position}

/-! ## What is shown, and where -/

/-- How wide line numbers are: the number of decimal digits of the one that is shown. -/
def gutter (place : Position) : Nat :=
  Nat.log 10 place.line + 1

/-- The line of the text with the number of a place, where zero counts as one; empty if there is
none. -/
def quotation (source : String) (place : Position) : List Char :=
  ((Text.lines source.toList)[max place.line 1 - 1]?).getD []

/-- How many characters of the quoted line the caret leaves to its left. -/
def indent (source : String) (place : Position) : Nat :=
  min (place.column - 1) (quotation source place).length

/-- Three rows stand below each other, each with a bar behind the gutter.  The second one quotes the
line, and the last one has a caret under the character at the place, or past the end of the line,
and before it a tab under each tab. -/
structure Aligned (source : String) (place : Position) (empty quoted pointer : List Char) :
    Prop where
  bar : ∀ row ∈ [empty, quoted, pointer], row[gutter place + 1]? = some '|'
  quoted_drop : quoted.drop (gutter place + 3) = quotation source place
  quoted_length : quoted.length = gutter place + 3 + (quotation source place).length
  marker : ∀ i < indent source place, pointer[gutter place + 3 + i]? =
    some (if (quotation source place)[i]? = some '\t' then '\t' else ' ')
  caret : pointer[gutter place + 3 + indent source place]? = some '^'
  pointer_length : pointer.length = gutter place + 3 + indent source place + 1

private theorem quotation_eq (source : String) (place : Position) :
    quotation source place = Text.lineAt (place.line - 1) source.toList := by
  have hnumber : max place.line 1 - 1 = place.line - 1 := by omega
  rw [quotation, Text.lineAt_eq_lines, hnumber]

/-- Below a tab the marker has a tab, and a blank everywhere else. -/
theorem getElem?_marker (chars : List Char) {column i : Nat}
    (h : i < min (column - 1) chars.length) :
    (marker chars column)[i]? = some (if chars[i]? = some '\t' then '\t' else ' ') := by
  have hcolumn : i < column - 1 := by omega
  have hlength : i < chars.length := by omega
  rw [marker, List.getElem?_map, List.getElem?_take_of_lt hcolumn, List.getElem?_eq_getElem hlength]
  simp

/-! ## Rows of an excerpt -/

private theorem getElem?_bar {lead : List Char} (h : lead.length = gutter place)
    (rest : List Char) :
    (lead ++ ' ' :: '|' :: rest)[gutter place + 1]? = some '|' := by
  simp [← h]

/-- Behind the bar of a row, a blank follows, and then the rest. -/
theorem getElem?_of_bar {lead : List Char} (h : lead.length = gutter place) (rest : List Char)
    (i : Nat) : (lead ++ ' ' :: '|' :: ' ' :: rest)[gutter place + 3 + i]? = rest[i]? := by
  have hindex : gutter place + 3 + i - lead.length = i + 3 := by omega
  rw [List.getElem?_append_right (by omega), hindex]
  rfl

/-- Rows that begin with the gutter, a bar and a blank line up. -/
theorem aligned_rows (source : String) (place : Position) {number : List Char}
    (hnumber : number.length = gutter place) :
    Aligned source place (List.replicate (gutter place) ' ' ++ [' ', '|'])
      (number ++ ' ' :: '|' :: ' ' :: quotation source place)
      (List.replicate (gutter place) ' ' ++ ' ' :: '|' :: ' ' ::
        (marker (quotation source place) place.column ++ ['^'])) := by
  have hmarker : (marker (quotation source place) place.column).length = indent source place :=
    length_marker _ _
  have hgutter : (List.replicate (gutter place) ' ').length = gutter place := List.length_replicate
  constructor
  · simp only [List.mem_cons, List.not_mem_nil, or_false]
    rintro row (rfl | rfl | rfl)
    · exact getElem?_bar hgutter _
    · exact getElem?_bar hnumber _
    · exact getElem?_bar hgutter _
  · simp [← hnumber]
  · simp only [List.length_append, List.length_cons, hnumber]
    omega
  · intro i hi
    rw [getElem?_of_bar hgutter, List.getElem?_append_left (hmarker ▸ hi), getElem?_marker _ hi]
  · rw [getElem?_of_bar hgutter, ← hmarker, List.getElem?_concat_length]
  · simp only [List.length_append, List.length_cons, List.length_nil, hgutter, hmarker]
    omega

/-- A notice about a place, with no newline in its code and its message, has five rows, each ended
by a newline, and the last three of them are aligned; this holds of every place and every text. -/
theorem render_aligned (hplace : notice.position = some place)
    (hcode : ∀ code, notice.code = some code → '\n' ∉ code.toList)
    (hmessage : '\n' ∉ notice.message.toList) (source : String) :
    ∃ heading location empty quoted pointer : String,
      notice.render source =
        String.join ([heading, location, empty, quoted, pointer].map (· ++ "\n")) ∧
      (∀ row ∈ [heading, location, empty, quoted, pointer], '\n' ∉ row.toList) ∧
      Aligned source place empty.toList quoted.toList pointer.toList := by
  have hwidth : (toString place.line).length = gutter place := length_toString_nat place.line
  have hnumber : (toString place.line).toList.length = gutter place := hwidth
  have hrows : notice.rows source =
      [notice.heading,
        String.ofList (List.replicate (gutter place) ' ') ++ "--> " ++ toString place,
        String.ofList (List.replicate (gutter place) ' ') ++ " |",
        toString place.line ++ " | " ++ String.ofList (quotation source place),
        String.ofList (List.replicate (gutter place) ' ') ++ " | " ++
          String.ofList (marker (quotation source place) place.column) ++ "^"] := by
    rw [rows, hplace, Option.map_some, Option.getD_some, excerpt, hwidth, quotation_eq]
  have hnewline : ∀ row ∈ notice.rows source, '\n' ∉ row.toList :=
    newline_not_mem_rows hcode hmessage
  rw [hrows] at hnewline
  refine ⟨_, _, _, _, _, ?_, hnewline, ?_⟩
  · rw [render, hrows]
  · simpa using aligned_rows source place hnumber

/-- A notice about the tenth line of a text, which is indented by a tab, and a column past its
end. -/
def pastEnd : Notice :=
  ⟨.error, some "E0102", "no such column", some ⟨10, 7⟩⟩

/-- The caret of `pastEnd` stands behind the two characters of the line, and the bars behind the two
digits of its number. -/
theorem pastEnd_aligned :
    ∃ heading location empty quoted pointer : String,
      pastEnd.render "\n\n\n\n\n\n\n\n\n\tz\r\n" =
        String.join ([heading, location, empty, quoted, pointer].map (· ++ "\n")) ∧
      empty.toList[3]? = some '|' ∧ quoted.toList.drop 5 = ['\t', 'z'] ∧
      pointer.toList[5]? = some '\t' ∧ pointer.toList[7]? = some '^' := by
  have hquotation : quotation "\n\n\n\n\n\n\n\n\n\tz\r\n" ⟨10, 7⟩ = ['\t', 'z'] := by decide
  have hgutter : gutter ⟨10, 7⟩ = 2 := by decide
  have hindent : indent "\n\n\n\n\n\n\n\n\n\tz\r\n" ⟨10, 7⟩ = 2 := by
    rw [indent, hquotation]
    rfl
  have hcode : ∀ code, pastEnd.code = some code → '\n' ∉ code.toList := by
    rintro code ⟨⟩
    decide
  have hmessage : '\n' ∉ pastEnd.message.toList := by decide
  rcases render_aligned rfl hcode hmessage "\n\n\n\n\n\n\n\n\n\tz\r\n" with
    ⟨heading, location, empty, quoted, pointer, hrender, -, haligned⟩
  refine ⟨heading, location, empty, quoted, pointer, hrender, ?_, ?_, ?_, ?_⟩
  · have hbar := haligned.bar empty.toList List.mem_cons_self
    rwa [hgutter] at hbar
  · have hdrop := haligned.quoted_drop
    rwa [hgutter, hquotation] at hdrop
  · have hmarker := haligned.marker 0 (by rw [hindent]; decide)
    rwa [hgutter, hquotation] at hmarker
  · have hcaret := haligned.caret
    rwa [hgutter, hindent] at hcaret

end Notice

end BitwiseCircuit
