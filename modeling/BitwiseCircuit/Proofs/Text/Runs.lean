import Mathlib.Data.List.TakeWhile
import BitwiseCircuit.Position
import BitwiseCircuit.Text.Blank

/-!
# Runs of a text

Blanks cut a text into runs of other characters.  A run that would start with a number
sign is none: there a comment starts, which takes the rest of the line with it, blanks
included.  Inside a run a number sign is a character like any other.

Main results:

- Definition `Run` is a sequence of characters that are not blank, with the place where it
  starts.
- Definition `runs` lists the runs of a text.
-/

namespace BitwiseCircuit

namespace Position

variable {here : Position} {c : Char} {letters more : List Char}

/-- The place that follows once some characters at `here` have been read. -/
def after (here : Position) (letters : List Char) : Position :=
  letters.foldl next here

@[simp]
theorem after_cons : here.after (c :: letters) = (here.next c).after letters :=
  rfl

@[simp]
theorem after_append : here.after (letters ++ more) = (here.after letters).after more :=
  List.foldl_append

end Position

namespace Text

/-- The first element that `dropWhile` keeps fails the test. -/
theorem eq_false_of_mem_head?_dropWhile {p : Char → Bool} {c : Char} {rest : List Char}
    (h : c ∈ (rest.dropWhile p).head?) : p c = false := by
  have hnot := List.head?_dropWhile_not p rest
  rwa [h] at hnot

/-- One character or more that stand next to each other in a text, no blank among them,
and the place of the first. -/
structure Run where
  start : Position
  letters : List Char
  letters_ne_nil : letters ≠ []
  not_isBlank : ∀ c ∈ letters, isBlank c = false
deriving DecidableEq, Repr

namespace Run

/-- The characters of a run as a text of their own. -/
def spelling (run : Run) : String :=
  .ofList run.letters

/-- The run that starts with `c` and goes on in the characters `rest`, up to a blank. -/
def startingWith (here : Position) (c : Char) (rest : List Char) (hc : isBlank c = false) :
    Run where
  start := here
  letters := c :: rest.takeWhile (!isBlank ·)
  letters_ne_nil := List.cons_ne_nil _ _
  not_isBlank := by
    refine List.forall_mem_cons.mpr ⟨hc, fun d hd => ?_⟩
    simpa using List.mem_takeWhile_imp hd

end Run

/-- The runs of the characters that stand from `here` on.  A run ends before a blank, a
comment before a newline, and both are as long as they can be. -/
def runsFrom (here : Position) : List Char → List Run
  | [] => []
  | c :: rest =>
    if hblank : isBlank c then
      runsFrom (here.next c) rest
    else if c = '#' then
      runsFrom (here.after (c :: rest.takeWhile (· != '\n'))) (rest.dropWhile (· != '\n'))
    else
      Run.startingWith here c rest (by simpa using hblank) ::
        runsFrom (here.after (c :: rest.takeWhile (!isBlank ·))) (rest.dropWhile (!isBlank ·))
termination_by text => text.length
decreasing_by
  · exact Nat.lt_succ_self _
  · exact Nat.lt_succ_of_le (List.length_dropWhile_le _ _)
  · exact Nat.lt_succ_of_le (List.length_dropWhile_le _ _)

/-- The runs of a text, in order. -/
def runs (text : String) : List Run :=
  runsFrom .first text.toList

example : (runs "1 # a\n b#c").map (fun run => (run.start, run.spelling)) =
    [(⟨1, 1⟩, "1"), (⟨2, 2⟩, "b#c")] := by
  decide +kernel

end Text

end BitwiseCircuit
