import BitwiseCircuit.Fault
import BitwiseCircuit.Text.Lines

/-!
# Notices

A notice tells a reader about a text: a heading with its severity, its code and
its message, and then, if it is about one place, an excerpt that shows the line
and points to the character.

    error[E0102]: lex error: no token matches `AM` at 1:4
     --> 1:4
      |
    1 | x AMD y -> d
      |    ^

Main results:

- Definition `Notice.excerpt` gives the four rows of the excerpt.
- Definition `Notice.render` writes a notice, and `Notice.ofFault` makes one of a
  fault.
-/

namespace BitwiseCircuit

/-- How grave a notice is. -/
inductive Severity where
  | error
  | warning
deriving DecidableEq, Repr

/-- The word that a notice begins with. -/
def Severity.label : Severity → String
  | error => "error"
  | warning => "warning"

/-- Something to tell about a text. -/
structure Notice where
  severity : Severity
  code : Option String
  message : String
  position : Option Position
deriving DecidableEq, Repr

namespace Notice

/-- A warning that is about no place and has no code. -/
def warning (message : String) : Notice :=
  ⟨.warning, none, message, none⟩

/-- The notice of a fault. -/
def ofFault (fault : Fault) : Notice :=
  ⟨.error, some fault.code, fault.message, fault.position⟩

/-- The first row: severity, code and message. -/
def heading (notice : Notice) : String :=
  let code := (notice.code.map fun code => "[" ++ code ++ "]").getD ""
  notice.severity.label ++ code ++ ": " ++ notice.message

/-- What stands before the caret: a tab under each tab of the line and a space
under each other character, so that the caret stands under its column; it never
passes the end of the line. -/
def marker (line : List Char) (column : Nat) : List Char :=
  (line.take (column - 1)).map fun c => if c = '\t' then '\t' else ' '

/-- The rows that show a place of a text: the place, an empty row, the line after
its number, and a caret under the character.  Bars stand below each other, one
space past the number. -/
def excerpt (source : String) (position : Position) : List String :=
  let number := toString position.line
  let gutter := String.ofList (List.replicate number.length ' ')
  let line := Text.lineAt (position.line - 1) source.toList
  [gutter ++ "--> " ++ toString position,
   gutter ++ " |",
   number ++ " | " ++ String.ofList line,
   gutter ++ " | " ++ String.ofList (marker line position.column) ++ "^"]

/-- The rows of a notice about a given text. -/
def rows (notice : Notice) (source : String) : List String :=
  notice.heading :: (notice.position.map (excerpt source)).getD []

/-- A notice about a given text, every row ended by a newline. -/
def render (notice : Notice) (source : String) : String :=
  String.join ((notice.rows source).map (· ++ "\n"))

end Notice

end BitwiseCircuit
