import Mathlib.Data.List.Basic
import BitwiseCircuit.Proofs.Text.Runs
import BitwiseCircuit.Text.Lines

/-!
# What a text reads at a place

Places are counted while a text is read: a newline starts another line, and every other
character takes one column.  Lines are cut in another way, and a carriage return before a
newline belongs to none of them.  The two fit together: a run is found in the line and from the
column on that its place names.

Main results:

- Definition `ReadsAt` says what the lines of a text read at a place.
- Theorem `exists_of_mem_runsFrom`: the runs of a text stand where it says.
- Theorem `readsAt_of_mem_runs`: so the lines of the text read them there.
- Theorem `of_mem_lines`: what lines consist of.
-/

namespace BitwiseCircuit

/-- Characters other than newlines stay on their line. -/
theorem Position.after_of_ne_newline {here : Position} {letters : List Char}
    (h : ∀ c ∈ letters, c ≠ '\n') :
    here.after letters = ⟨here.line, here.column + letters.length⟩ := by
  induction letters generalizing here with
  | nil => rfl
  | cons c letters ih =>
      rcases List.forall_mem_cons.mp h with ⟨hc, hletters⟩
      rw [after_cons, next_of_ne_newline here hc, ih hletters, List.length_cons,
        Nat.add_right_comm, Nat.add_assoc]

namespace Text

variable {text : String} {place : Position} {letters more before after line rest : List Char}

/-! ## Lines -/

/-- A line consists of characters of the text in their order, and no newline is among them. -/
theorem of_mem_lines {chars : List Char} (h : line ∈ lines chars) :
    line.Sublist chars ∧ '\n' ∉ line := by
  fun_induction lines chars generalizing line with
  | case1 => cases h
  | case2 rest ih =>
      rcases List.mem_cons.mp h with rfl | h
      · simp
      · exact ⟨(ih h).1.cons _, (ih h).2⟩
  | case3 rest ih =>
      rcases List.mem_cons.mp h with rfl | h
      · simp
      · exact ⟨((ih h).1.cons _).cons _, (ih h).2⟩
  | case4 c rest hc _ hlines ih =>
      rw [List.mem_singleton.mp h]
      exact ⟨(List.nil_sublist rest).cons_cons c, by simpa using Ne.symm hc⟩
  | case5 c rest hc _ first others hlines ih =>
      rcases List.mem_cons.mp h with rfl | h
      · have hfirst := ih (hlines ▸ List.mem_cons_self)
        refine ⟨hfirst.1.cons_cons c, ?_⟩
        simpa using ⟨Ne.symm hc, hfirst.2⟩
      · have hother := ih (hlines ▸ List.mem_cons_of_mem first h)
        exact ⟨hother.1.cons c, hother.2⟩

/-- Only the end of a line can be a carriage return that is dropped. -/
theorem dropReturn_append (h : letters.getLast? ≠ some '\r') (rest : List Char) :
    dropReturn (letters ++ rest) = letters ++ dropReturn rest := by
  by_cases hrest : rest = []
  · subst hrest
    simp [dropReturn, h]
  · rw [dropReturn, dropReturn, List.getLast?_append_of_ne_nil _ hrest,
      List.dropLast_append_of_ne_nil hrest]
    split <;> rfl

/-- Letters that are not blank are no newlines. -/
theorem ne_newline_of_not_isBlank (h : ∀ c ∈ letters, isBlank c = false) :
    ∀ c ∈ letters, c ≠ '\n' := by
  rintro c hc rfl
  simpa using h '\n' hc

/-- The first line of a text keeps all characters before a newline that are not blank. -/
theorem exists_firstLine (hne : letters ≠ []) (hsolid : ∀ c ∈ letters, isBlank c = false)
    (hbefore : ∀ c ∈ before, c ≠ '\n') (after : List Char) :
    ∃ right, firstLine (before ++ letters ++ after) = before ++ letters ++ right := by
  have hline : ∀ c ∈ before ++ letters, (c != '\n') = true := by
    intro c hc
    rcases List.mem_append.mp hc with hc | hc
    · simpa using hbefore c hc
    · simpa using ne_newline_of_not_isBlank hsolid c hc
  have hlast : (before ++ letters).getLast? ≠ some '\r' := by
    rw [List.getLast?_append_of_ne_nil _ hne]
    intro hreturn
    have hblank := hsolid '\r' (List.mem_of_getLast? hreturn)
    revert hblank
    decide
  simp only [firstLine, List.takeWhile_append_of_pos hline]
  split
  · exact ⟨_, rfl⟩
  · exact ⟨_, dropReturn_append hlast _⟩

/-- What follows the first line begins after its newline. -/
theorem afterLine_append (h : ∀ c ∈ line, c ≠ '\n') (rest : List Char) :
    afterLine (line ++ '\n' :: rest) = rest := by
  have hline : ∀ c ∈ line, (c != '\n') = true := by simpa using h
  rw [afterLine, List.dropWhile_append_of_pos hline]
  rfl

/-- Characters that are not blank stand in one line of a text, in the column that counting
gives.  Here `done` is what has been read of the current line. -/
theorem exists_line_of_append (hne : letters ≠ []) (hsolid : ∀ c ∈ letters, isBlank c = false)
    (after before : List Char) : ∀ (done : List Char) (n : Nat), (∀ c ∈ done, c ≠ '\n') →
      ∃ k left right, (lines (done ++ before ++ letters ++ after))[k]? =
          some (left ++ letters ++ right) ∧
        (⟨n, done.length + 1⟩ : Position).after before = ⟨n + k, left.length + 1⟩ := by
  induction before with
  | nil =>
      intro done n hdone
      rw [List.append_nil, lines_eq_firstLine_cons (by simp [hne])]
      rcases exists_firstLine hne hsolid hdone after with ⟨right, hright⟩
      exact ⟨0, done, right, by rw [hright]; rfl, rfl⟩
  | cons c before ih =>
      intro done n hdone
      by_cases hc : c = '\n'
      · subst hc
        rcases ih [] (n + 1) nofun with ⟨k, left, right, hline, hplace⟩
        refine ⟨k + 1, left, right, ?_, ?_⟩
        · rw [List.append_assoc, List.append_assoc, List.cons_append,
            lines_eq_firstLine_cons (by simp), afterLine_append hdone, List.getElem?_cons_succ]
          simpa using hline
        · rw [Position.after_cons, Position.next_newline]
          simpa [Nat.add_assoc, Nat.add_comm 1 k] using hplace
      · have hdone' : ∀ d ∈ done ++ [c], d ≠ '\n' := by
          simpa [or_imp, forall_and] using ⟨hdone, hc⟩
        rcases ih (done ++ [c]) n hdone' with ⟨k, left, right, hline, hplace⟩
        refine ⟨k, left, right, ?_, ?_⟩
        · simpa using hline
        · rw [Position.after_cons, Position.next_of_ne_newline _ hc]
          simpa using hplace

/-! ## Places -/

/-- The line that the place is in reads `letters` from the column of the place on. -/
def ReadsAt (text : String) (place : Position) (letters : List Char) : Prop :=
  ∃ left right, 1 ≤ place.line ∧ place.column = left.length + 1 ∧
    (lines text.toList)[place.line - 1]? = some (left ++ letters ++ right)

/-- A beginning of what is read at a place is read there too. -/
theorem ReadsAt.of_append (h : ReadsAt text place (letters ++ more)) :
    ReadsAt text place letters := by
  rcases h with ⟨left, right, hline, hcolumn, hreads⟩
  exact ⟨left, more ++ right, hline, hcolumn, by simpa using hreads⟩

/-- What is read at a place goes on just past a beginning of it. -/
theorem ReadsAt.skip (h : ReadsAt text place (letters ++ more)) :
    ReadsAt text ⟨place.line, place.column + letters.length⟩ more := by
  rcases h with ⟨left, right, hline, hcolumn, hreads⟩
  refine ⟨left ++ letters, right, hline, ?_, by simpa using hreads⟩
  rw [hcolumn, List.length_append, Nat.add_right_comm]

/-- What is read at a place has no newline. -/
theorem ReadsAt.newline_not_mem (h : ReadsAt text place letters) : '\n' ∉ letters := by
  rcases h with ⟨left, right, -, -, hreads⟩
  have hline := (of_mem_lines (List.mem_of_getElem? hreads)).2
  simp only [List.mem_append, not_or] at hline
  exact hline.1.2

/-- What is read at a place fits in the line of the place, which is no longer than the text. -/
theorem ReadsAt.exists_line (h : ReadsAt text place letters) :
    ∃ line, (lines text.toList)[place.line - 1]? = some line ∧ 1 ≤ place.column ∧
      place.column - 1 + letters.length ≤ line.length ∧ line.length ≤ text.length := by
  rcases h with ⟨left, right, -, hcolumn, hreads⟩
  have hline := (of_mem_lines (List.mem_of_getElem? hreads)).1.length_le
  refine ⟨_, hreads, by omega, ?_, ?_⟩
  · rw [hcolumn, List.length_append, List.length_append]
    omega
  · rwa [String.length_toList] at hline

/-- A run stands in the text after the characters that lead to its place. -/
theorem exists_of_mem_runsFrom {run : Run} {here : Position} (h : run ∈ runsFrom here rest) :
    ∃ before after, rest = before ++ run.letters ++ after ∧ run.start = here.after before := by
  fun_induction runsFrom here rest with
  | case1 here => cases h
  | case2 here c rest hblank ih =>
      rcases ih h with ⟨before, after, hsplit, hstart⟩
      exact ⟨c :: before, after, by rw [hsplit]; rfl, hstart⟩
  | case3 here rest hblank ih =>
      rcases ih h with ⟨before, after, hsplit, hstart⟩
      refine ⟨'#' :: rest.takeWhile (· != '\n') ++ before, after, ?_, ?_⟩
      · rw [List.append_assoc, List.append_assoc, ← List.append_assoc before, ← hsplit,
          List.cons_append, List.takeWhile_append_dropWhile]
      · rw [hstart, Position.after_append]
  | case4 here c rest hblank hhash ih =>
      rcases List.mem_cons.mp h with rfl | h
      · refine ⟨[], rest.dropWhile (!isBlank ·), ?_, rfl⟩
        simp [Run.startingWith]
      · rcases ih h with ⟨before, after, hsplit, hstart⟩
        refine ⟨c :: rest.takeWhile (!isBlank ·) ++ before, after, ?_, ?_⟩
        · rw [List.append_assoc, List.append_assoc, ← List.append_assoc before, ← hsplit,
            List.cons_append, List.takeWhile_append_dropWhile]
        · rw [hstart, Position.after_append]

/-- The lines of a text read its runs where they start. -/
theorem readsAt_of_mem_runs {run : Run} (h : run ∈ runs text) :
    ReadsAt text run.start run.letters := by
  rcases exists_of_mem_runsFrom h with ⟨before, after, hsplit, hstart⟩
  rcases exists_line_of_append run.letters_ne_nil run.not_isBlank after before [] 1 nofun with
    ⟨k, left, right, hline, hplace⟩
  rw [List.nil_append, ← hsplit] at hline
  have hstart' : run.start = ⟨1 + k, left.length + 1⟩ := hstart.trans hplace
  refine ⟨left, right, ?_, ?_, ?_⟩
  · simp [hstart']
  · simp [hstart']
  · simpa [hstart'] using hline

end Text

end BitwiseCircuit
