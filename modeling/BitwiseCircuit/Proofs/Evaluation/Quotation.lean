import BitwiseCircuit.Proofs.Evaluation.Culprits
import BitwiseCircuit.Proofs.Notice.Rows

/-!
# Notices quote the text at fault

A text on which an evaluation fails is shown again with its notice.  As the text reads what the
fault is about at the place of the fault, the message of the fault is one line, and the line that
the notice quotes is long enough for its caret.

Main results:

- Theorem `Fault.LocatedIn.newline_not_mem_message`: the message of a fault with a place in the
  text has no newline.
- Theorem `Fault.LocatedIn.exists_line`: the place is in a line of the text.
- Theorem `evaluate_fault_shown`: the notice of a fault quotes that line and points to the place.
-/

namespace BitwiseCircuit

open Text (ReadsAt)

variable {text : String} {place : Position}

/-! ## Messages -/

private theorem TokenFault.LocatedIn.newline_not_mem_message {fault : TokenFault}
    (h : fault.LocatedIn text) : '\n' ∉ fault.message.toList := by
  cases fault with
  | ambiguous place spelling kinds =>
      have hspelling : '\n' ∉ spelling.toList := Text.ReadsAt.newline_not_mem h
      have hplace := place.newline_not_mem_toString
      have hkinds := TokenKind.newline_not_mem_alternatives kinds
      unfold message
      dsimp only
      simp [hspelling, hplace, hkinds]
  | noMatch place found spelling =>
      rcases h with ⟨-, start, hreads, -⟩
      have hspelling := hreads.newline_not_mem
      have hplace := place.newline_not_mem_toString
      unfold message
      dsimp only
      simp_all
  | unterminated place spelling kind =>
      have hspelling : '\n' ∉ spelling.toList := Text.ReadsAt.newline_not_mem h
      have hplace := place.newline_not_mem_toString
      have hkind := kind.newline_not_mem_phrase
      unfold message
      dsimp only
      simp [hspelling, hplace, hkind]

private theorem GrammarFault.LocatedIn.newline_not_mem_message {fault : GrammarFault}
    (h : fault.LocatedIn text) : '\n' ∉ fault.message.toList := by
  cases fault with
  | unexpectedToken expected found =>
      have hspelling : '\n' ∉ found.spelling.toList := Text.ReadsAt.newline_not_mem h
      have hplace := found.position.newline_not_mem_toString
      have hexpected := TokenKind.newline_not_mem_alternatives expected
      have hkind := found.kind.newline_not_mem_phrase
      unfold message
      dsimp only
      simp [hspelling, hplace, hexpected, hkind]
  | unexpectedEnd expected place =>
      have hplace := place.newline_not_mem_toString
      have hexpected := TokenKind.newline_not_mem_alternatives expected
      unfold message
      dsimp only
      simp [hplace, hexpected]

private theorem WireFault.LocatedIn.newline_not_mem_message {fault : WireFault}
    (h : fault.LocatedIn text) (hplace : fault.position = some place) :
    '\n' ∉ fault.message.toList := by
  cases fault with
  | undefined name place? =>
      obtain rfl : place? = some place := hplace
      have hname := (h place rfl).newline_not_mem
      have hplace := place.newline_not_mem_toString
      unfold message
      dsimp only
      simp [hname, hplace]
  | reassigned name first second =>
      have hname := h.1.newline_not_mem
      have hfirst := first.newline_not_mem_toString
      have hsecond := second.newline_not_mem_toString
      unfold message
      dsimp only
      simp [hname, hfirst, hsecond]
  | cyclic name cycle place =>
      have hname := h.1.newline_not_mem
      have hcycle : ∀ part ∈ cycle.map String.toList, '\n' ∉ part := by
        rw [List.forall_mem_map]
        intro other hother
        rcases h.2 other hother with ⟨_, hreads⟩
        exact hreads.newline_not_mem
      have hnames : '\n' ∉ [' ', '-', '>', ' '].intercalate (cycle.map String.toList) :=
        newline_not_mem_intercalate (by decide) hcycle
      unfold message
      dsimp only
      simp [hname, hnames]
  | literalOutOfRange spelling place =>
      have hspelling : '\n' ∉ spelling.toList := Text.ReadsAt.newline_not_mem h
      have hplace := place.newline_not_mem_toString
      unfold message
      dsimp only
      simp [hspelling, hplace]

/-- A message has no newline, as all that it repeats of the text stands in a line. -/
theorem Fault.LocatedIn.newline_not_mem_message {fault : Fault} (h : fault.LocatedIn text)
    (hplace : fault.position = some place) : '\n' ∉ fault.message.toList := by
  cases fault with
  | token fault =>
      have hmessage := TokenFault.LocatedIn.newline_not_mem_message h
      unfold message
      dsimp only
      simp [hmessage]
  | grammar fault =>
      have hmessage := GrammarFault.LocatedIn.newline_not_mem_message h
      unfold message
      dsimp only
      simp [hmessage]
  | wire fault =>
      have hmessage := WireFault.LocatedIn.newline_not_mem_message h hplace
      unfold message
      dsimp only
      simp [hmessage]

/-- The code of a fault has no newline. -/
theorem Fault.newline_not_mem_code (fault : Fault) : '\n' ∉ fault.code.toList := by
  rcases fault with fault | fault | fault <;> cases fault <;>
    simp [code, TokenFault.code, GrammarFault.code, WireFault.code]

/-! ## The line of a fault -/

/-- The end of the tokens is in a line of the text, or the text is empty. -/
theorem GrammarFault.LocatedIn.exists_line_of_end {expected : List TokenKind}
    (h : (unexpectedEnd expected place).LocatedIn text) :
    ∃ line, ((Text.lines text.toList)[place.line - 1]? = some line ∨ text = "" ∧ line = []) ∧
      place.column - 1 ≤ line.length := by
  rcases h with ⟨tokens, -, hnone, hsome⟩
  cases hlast : tokens.getLast? with
  | none =>
      obtain rfl := hnone (List.getLast?_eq_none_iff.mp hlast)
      by_cases htext : text = ""
      · exact ⟨[], .inr ⟨htext, rfl⟩, Nat.zero_le _⟩
      · have hne : text.toList ≠ [] := by simpa using htext
        refine ⟨Text.firstLine text.toList, .inl ?_, Nat.zero_le _⟩
        rw [Text.lines_eq_firstLine_cons hne]
        rfl
  | some last =>
      rcases hsome last hlast with ⟨hreads, rfl, -⟩
      rcases hreads.exists_line with ⟨line, hline, hcolumn, hfits, -⟩
      rw [String.length_toList] at hfits
      refine ⟨line, .inl hline, ?_⟩
      have hpast : last.finish.column ≤ last.position.column + last.spelling.length :=
        Nat.mod_le _ _
      omega

private theorem TokenFault.LocatedIn.exists_readsAt {fault : TokenFault}
    (h : fault.LocatedIn text) : ∃ letters, ReadsAt text fault.position letters := by
  cases fault with
  | ambiguous start spelling kinds => exact ⟨_, h⟩
  | noMatch start found spelling => exact ⟨_, h.1⟩
  | unterminated start spelling kind => exact ⟨_, h⟩

private theorem WireFault.LocatedIn.exists_readsAt {fault : WireFault} (h : fault.LocatedIn text)
    (hplace : fault.position = some place) : ∃ letters, ReadsAt text place letters := by
  cases fault with
  | undefined name place? => exact ⟨_, h place hplace⟩
  | reassigned name first second =>
      cases hplace
      exact ⟨_, h.2⟩
  | cyclic name cycle start =>
      cases hplace
      exact ⟨_, h.1⟩
  | literalOutOfRange spelling start =>
      cases hplace
      exact ⟨_, h⟩

/-- The place of a fault is in a line of the text, or the text is empty. -/
theorem Fault.LocatedIn.exists_line {fault : Fault} (h : fault.LocatedIn text)
    (hplace : fault.position = some place) :
    ∃ line, ((Text.lines text.toList)[place.line - 1]? = some line ∨ text = "" ∧ line = []) ∧
      place.column - 1 ≤ line.length := by
  have hread : (∃ letters, ReadsAt text place letters) → ∃ line,
      ((Text.lines text.toList)[place.line - 1]? = some line ∨ text = "" ∧ line = []) ∧
        place.column - 1 ≤ line.length := by
    rintro ⟨letters, hreads⟩
    rcases hreads.exists_line with ⟨line, hline, -, hfits, -⟩
    exact ⟨line, .inl hline, by omega⟩
  cases fault with
  | token fault =>
      cases hplace
      exact hread (TokenFault.LocatedIn.exists_readsAt h)
  | grammar fault =>
      cases fault with
      | unexpectedToken expected found =>
          cases hplace
          exact hread ⟨_, h⟩
      | unexpectedEnd expected finish =>
          cases hplace
          exact @GrammarFault.LocatedIn.exists_line_of_end _ _ expected h
  | wire fault => exact hread (WireFault.LocatedIn.exists_readsAt h hplace)

/-! ## Notices -/

/-- A fault that names a place names the place of what it is about: the text reads it there, and
its notice has five lines, quotes the line of the text, and puts its caret after as many blanks
as there are columns before the place. -/
theorem evaluate_fault_shown {names : List String} {order : Netlist.Order} {fault : Fault}
    (h : evaluate text names order = .error fault) (hplace : fault.position = some place) :
    fault.LocatedIn text ∧
      (Text.lines ((Notice.ofFault fault).render text).toList).length = 5 ∧
      ∃ (gutter line marker : List Char),
        ((Text.lines text.toList)[place.line - 1]? = some line ∨ text = "" ∧ line = []) ∧
        gutter = List.replicate (toString place.line).length ' ' ∧
        marker.length = place.column - 1 ∧ (∀ c ∈ marker, c = ' ' ∨ c = '\t') ∧
        (Notice.ofFault fault).render text = String.join
          ([(Notice.ofFault fault).heading,
            String.ofList gutter ++ "--> " ++ toString place,
            String.ofList gutter ++ " |",
            toString place.line ++ " | " ++ String.ofList line,
            String.ofList gutter ++ " | " ++ String.ofList marker ++ "^"].map (· ++ "\n")) := by
  have hlocated := locatedIn_of_evaluate h
  rcases hlocated.exists_line hplace with ⟨line, hline, hcolumn⟩
  have hrows : (Notice.ofFault fault).rows text = _ := Notice.rows_eq hplace hline
  have hnewline : ∀ row ∈ (Notice.ofFault fault).rows text, '\n' ∉ row.toList := by
    refine Notice.newline_not_mem_rows ?_ (hlocated.newline_not_mem_message hplace)
    rintro code ⟨⟩
    exact fault.newline_not_mem_code
  refine ⟨hlocated, ?_, _, line, Notice.marker line place.column, hline, rfl, ?_, ?_, ?_⟩
  · rw [Notice.length_lines_render hnewline, hrows]
    rfl
  · rw [Notice.length_marker]
    omega
  · exact fun c hc => Notice.of_mem_marker hc
  · rw [Notice.render, hrows]

/-- A text with a comment, a carriage return, a tab and another blank; no token starts with a
digit and goes on with a letter. -/
def stray : String :=
  "# x\r\n\tx\u2003AND 5y -> d"

/-- The letter that fits no token is the ninth character of the second line. -/
theorem stray_fault_shown :
    evaluate stray [] .byName = .error (.token (.noMatch ⟨2, 9⟩ 'y' "5")) ∧
      ReadsAt stray ⟨2, 9⟩ ['y'] ∧
      (Text.lines ((Notice.ofFault (.token (.noMatch ⟨2, 9⟩ 'y' "5"))).render stray).toList).length
        = 5 := by
  have hevaluate : evaluate stray [] .byName = .error (.token (.noMatch ⟨2, 9⟩ 'y' "5")) := by
    decide +kernel
  rcases evaluate_fault_shown hevaluate rfl with ⟨hlocated, hlines, -⟩
  exact ⟨hevaluate, hlocated.1, hlines⟩

end BitwiseCircuit
