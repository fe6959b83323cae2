import BitwiseCircuit.Proofs.Text.Counting
import BitwiseCircuit.Proofs.Token.Scanning

/-!
# Tokens line by line

A newline ends whatever is open, a token or a comment, just as the end of a text does.  So a
text in front of a newline can be read by itself, and the text after the newline as if nothing
stood in front of it, but for the numbers of its lines.

Main results:

- Definitions `Position.down`, `Token.down` and `TokenFault.down` move what was found by some
  lines.
- Theorem `Text.runsFrom_append_newline`: no run crosses a newline; Theorem `Text.runsFrom_down`:
  the runs of a text are the same on other lines.
- Theorem `Lexicon.tokenize_append_newline`: the tokens, or the fault, of two texts with a newline
  between them.
-/

namespace BitwiseCircuit

variable {k : Nat} {here p : Position} {c : Char} {rest before after : List Char}

/-! ## Some lines further down -/

/-- The same column, `k` lines further down. -/
def Position.down (k : Nat) (p : Position) : Position :=
  ⟨p.line + k, p.column⟩

namespace Position

private theorem next_down : (p.down k).next c = (p.next c).down k := by
  by_cases hc : c = '\n'
  · subst hc
    simp [down, Nat.add_right_comm]
  · simp [down, hc]

private theorem after_down : (p.down k).after rest = (p.after rest).down k := by
  induction rest generalizing p with
  | nil => rfl
  | cons c rest ih => rw [after_cons, after_cons, next_down, ih]

/-- A newline after some characters leads to the first column, as many lines down as there are
newlines. -/
theorem first_after_newline (letters : List Char) :
    (first.after letters).next '\n' = first.down (letters.count '\n' + 1) := by
  rw [← Text.placeAfter_eq, next_newline, Text.placeAfter, first, down, Nat.add_assoc]

end Position

/-- The token, found `k` lines further down. -/
def Token.down (k : Nat) (token : Token) : Token :=
  { token with position := token.position.down k }

/-- The fault, found `k` lines further down. -/
def TokenFault.down (k : Nat) : TokenFault → TokenFault
  | ambiguous position spelling kinds => ambiguous (position.down k) spelling kinds
  | noMatch position found spelling => noMatch (position.down k) found spelling
  | unterminated position spelling kind => unterminated (position.down k) spelling kind

/-! ## Runs -/

namespace Text

/-- The run, found `k` lines further down. -/
def Run.down (k : Nat) (run : Run) : Run :=
  { run with start := run.start.down k }

private theorem takeWhile_append_cons {p : Char → Bool} (hc : p c = false)
    (before after : List Char) :
    (before ++ c :: after).takeWhile p = before.takeWhile p := by
  induction before with
  | nil => rw [List.nil_append, List.takeWhile_cons_of_neg (by simp [hc]), List.takeWhile_nil]
  | cons d before ih => rw [List.cons_append, List.takeWhile_cons, List.takeWhile_cons, ih]

private theorem dropWhile_append_cons {p : Char → Bool} (hc : p c = false)
    (before after : List Char) :
    (before ++ c :: after).dropWhile p = before.dropWhile p ++ c :: after := by
  induction before with
  | nil => rw [List.nil_append, List.dropWhile_cons_of_neg (by simp [hc]), List.dropWhile_nil,
      List.nil_append]
  | cons d before ih =>
      rw [List.cons_append, List.dropWhile_cons, List.dropWhile_cons, ih]
      split <;> rfl

/-- No run and no comment crosses a newline. -/
theorem runsFrom_append_newline : runsFrom here (before ++ '\n' :: after) =
    runsFrom here before ++ runsFrom ((here.after before).next '\n') after := by
  fun_induction runsFrom here before with
  | case1 here =>
      rw [List.nil_append, runsFrom, dif_pos isBlank_newline]
      rfl
  | case2 here c rest hblank ih =>
      rw [List.cons_append, runsFrom, dif_pos hblank, ih]
      rfl
  | case3 here rest hblank ih =>
      have hkept := takeWhile_append_cons (p := (· != '\n')) (c := '\n') rfl rest after
      have hleft := dropWhile_append_cons (p := (· != '\n')) (c := '\n') rfl rest after
      rw [List.cons_append, runsFrom, dif_neg hblank, if_pos rfl, hkept, hleft, ih,
        ← Position.after_append, List.cons_append, List.takeWhile_append_dropWhile]
  | case4 here c rest hblank hhash ih =>
      have hkept := takeWhile_append_cons (p := (!isBlank ·)) (c := '\n') (by simp) rest after
      have hleft := dropWhile_append_cons (p := (!isBlank ·)) (c := '\n') (by simp) rest after
      have hall : c :: rest.takeWhile (!isBlank ·) ++ rest.dropWhile (!isBlank ·) = c :: rest := by
        rw [List.cons_append, List.takeWhile_append_dropWhile]
      rw [List.cons_append, runsFrom, dif_neg hblank, if_neg hhash, hkept, hleft, ih,
        ← Position.after_append, hall, List.cons_append]
      simp only [Run.startingWith, hkept]

/-- The runs of some characters are the same on other lines. -/
theorem runsFrom_down : runsFrom (here.down k) rest = (runsFrom here rest).map (Run.down k) := by
  fun_induction runsFrom here rest with
  | case1 here => rw [runsFrom, List.map_nil]
  | case2 here c rest hblank ih => rw [runsFrom, dif_pos hblank, Position.next_down, ih]
  | case3 here rest hblank ih =>
      rw [runsFrom, dif_neg hblank, if_pos rfl, Position.after_down, ih]
  | case4 here c rest hblank hhash ih =>
      rw [runsFrom, dif_neg hblank, if_neg hhash, Position.after_down, ih, List.map_cons]
      rfl

/-- The runs of two texts with a newline between them. -/
theorem runs_append_newline (u v : String) : runs (u ++ "\n" ++ v) =
    runs u ++ (runs v).map (Run.down (u.toList.count '\n' + 1)) := by
  have hchars : (u ++ "\n" ++ v).toList = u.toList ++ '\n' :: v.toList := by simp
  rw [runs, hchars, runsFrom_append_newline, Position.first_after_newline, runsFrom_down, runs,
    runs]

end Text

/-! ## Tokens -/

namespace Lexicon

/-- What a run is does not depend on its line. -/
theorem judge_down (lexicon : Lexicon) (k : Nat) (run : Text.Run) :
    lexicon.judge (run.down k) =
      mapBoth (TokenFault.down k) (Token.down k) (lexicon.judge run) := by
  have hletters : (run.down k).letters = run.letters := rfl
  have hspelling : (run.down k).spelling = run.spelling := rfl
  have hstart : (run.down k).start = run.start.down k := rfl
  simp only [judge, hletters, hspelling, hstart, Position.after_down]
  cases lexicon.misfit? [] run.letters with
  | some misfit => rfl
  | none =>
      rcases lexicon.live run.letters with _ | ⟨rule, _ | ⟨rival, rules⟩⟩
      · rfl
      · dsimp only
        split <;> rfl
      · rfl

/-- Two texts with a newline between them have the fault of the first, if it has one; otherwise
what is found in the second one follows what is found in the first, further down by the lines of
the first. -/
theorem tokenize_append_newline (lexicon : Lexicon) (u v : String) :
    lexicon.tokenize (u ++ "\n" ++ v) =
      match lexicon.tokenize u, lexicon.tokenize v with
      | .error fault, _ => .error fault
      | .ok _, .error fault => .error (fault.down (u.toList.count '\n' + 1))
      | .ok tokens, .ok more =>
          .ok (tokens ++ more.map (Token.down (u.toList.count '\n' + 1))) := by
  have hsecond : ((Text.runs v).map (Text.Run.down (u.toList.count '\n' + 1))).mapM lexicon.judge =
      mapBoth (TokenFault.down (u.toList.count '\n' + 1))
        (List.map (Token.down (u.toList.count '\n' + 1))) (lexicon.tokenize v) := by
    rw [tokenize_eq_mapM_judge, mapBoth_mapM, List.mapM_map]
    simp only [Function.comp_def, judge_down]
  rw [tokenize_eq_mapM_judge, Text.runs_append_newline, List.mapM_append, hsecond,
    ← tokenize_eq_mapM_judge]
  cases lexicon.tokenize u with
  | error fault => rfl
  | ok tokens => cases lexicon.tokenize v <;> rfl

example : standard.tokenize ("x # y" ++ "\n" ++ "1\n?") =
    .error (TokenFault.down 1 (.noMatch ⟨2, 1⟩ '?' "")) := by
  decide +kernel

end Lexicon

end BitwiseCircuit
