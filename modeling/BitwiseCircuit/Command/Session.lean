import BitwiseCircuit.Command.Invocation
import BitwiseCircuit.Evaluation
import BitwiseCircuit.Notice
import BitwiseCircuit.Schematic.Tree

/-!
# Sessions of the command

A session carries out one request on the text that was read for it.  What it
shows goes to the standard output, and only if every stage that it needs
succeeds; reports of the stages, warnings and the fault that ends it go to the
standard error.

Main results:

- Definition `Request.session` carries out a request.
- Definition `Invocation.outcome` is everything that a run of the command leaves:
  its exit status and its two outputs.
-/

namespace BitwiseCircuit.Command

/-! ## Reading the input -/

/-- Why an input cannot be read. -/
inductive ReadFailure where
  | notFound
  | isDirectory
  /-- The path goes on below a file. -/
  | notDirectory
  /-- The bytes are not UTF-8. -/
  | notText
  /-- Any other refusal of the system, with its number. -/
  | refused (reason : String) (number : Nat)
deriving DecidableEq, Repr

/-- The wording of a cause. -/
def ReadFailure.cause : ReadFailure → String
  | notFound => "No such file or directory (os error 2)"
  | isDirectory => "Is a directory (os error 21)"
  | notDirectory => "Not a directory (os error 20)"
  | notText => "stream did not contain valid UTF-8"
  | refused reason number => reason ++ " (os error " ++ toString number ++ ")"

/-- The text that bytes hold. -/
def textOfBytes (bytes : ByteArray) : Except ReadFailure String :=
  match String.fromUTF8? bytes with
  | some text => .ok text
  | none => .error .notText

/-! ## Sessions -/

/-- What a run of the command leaves. -/
structure Outcome where
  status : Nat
  stdout : String
  stderr : String
deriving DecidableEq, Repr

/-- A session: it may end with the wording of an error, and it keeps what it has
written to the standard error. -/
abbrev Session := ExceptT String (StateM String)

namespace Session

/-- Writes to the standard error. -/
def tell (text : String) : Session Unit :=
  modify (· ++ text)

/-- The value of a stage, or the error that shows its fault in the text. -/
def stage {ε α : Type} (text : String) (toFault : ε → Fault) (result : Except ε α) :
    Session α :=
  match result with
  | .ok value => pure value
  | .error fault => throw ((Notice.ofFault (toFault fault)).render text)

/-- The outcome of a session whose result is what it shows. -/
def outcome (session : Session String) : Outcome :=
  match (ExceptT.run session).run "" with
  | (.ok output, log) => ⟨0, output, log⟩
  | (.error error, log) => ⟨1, "", log ++ "Error: " ++ error ++ "\n"⟩

end Session

namespace Request

/-- Reports a completed stage, if that is wanted. -/
def summarise (request : Request) (summary : String) : Session Unit :=
  if request.verbose then Session.tell (summary ++ "\n") else pure ()

/-- The error of an input that cannot be read. -/
def readError (request : Request) (failure : ReadFailure) : String :=
  let subject :=
    if request.input = "-" then "circuit from stdin" else "input file " ++ request.input
  "failed to read " ++ subject ++ "\n\nCaused by:\n    " ++ failure.cause

/-- Warns of an order that has no effect, since the wires to report are named. -/
def warn (request : Request) (text : String) : Session Unit :=
  if !request.wires.isEmpty && request.order != .byName then
    Session.tell ((Notice.warning "--order is ignored when wires are listed").render text)
  else
    pure ()

/-- Tokens are shown one to a line. -/
def showTokens (tokens : List Token) : String :=
  String.join (tokens.map fun token => toString token ++ "\n")

/-- Words of wires are shown one to a line, after the name of the wire. -/
def showReport (report : Report) : String :=
  String.join (report.map fun (name, word) => name ++ ": " ++ word.toDecimal ++ "\n")

/-- Resolves the wires of a schematic and shows their words. -/
def showValues (request : Request) (text : String) (schematic : Schematic) :
    Session String := do
  let net ← Session.stage text .wire (Netlist.ofSchematic schematic)
  request.summarise ("built graph with " ++ toString net.size ++ " wires")
  request.warn text
  let (result, net) := (Netlist.report request.wires request.order).on net
  let report ← Session.stage text .wire result
  request.summarise ("resolved " ++ toString report.length ++ " wires with "
    ++ toString net.evaluations ++ " gate evaluations")
  return showReport report

/-- Reads the tokens of a circuit as a schematic and shows that or its wires. -/
def showSchematic (request : Request) (text : String) (tokens : List Token) :
    Session String := do
  let schematic ← Session.stage text .grammar (Schematic.ofTokens tokens)
  request.summarise ("parsed " ++ toString schematic.statements.length ++ " statements")
  if request.subject = .tree then
    return schematic.toTree
  else
    request.showValues text schematic

/-- Carries out a request on the text that was read for it. -/
def session (request : Request) (source : Except ReadFailure String) : Session String := do
  match source with
  | .error failure => throw (request.readError failure)
  | .ok text =>
    let tokens ← Session.stage text .token (tokenize text)
    request.summarise ("lexed " ++ toString tokens.length ++ " tokens")
    if request.subject = .tokens then
      return showTokens tokens
    else
      request.showSchematic text tokens

end Request

/-! ## The command -/

namespace Invocation

/-- The input that has to be read, if any. -/
def input? : Invocation → Option String
  | run request => some request.input
  | version | help | misuse => none

/-- How the command is called. -/
def usage : String :=
  "Usage: wires-cli [OPTIONS] <FILE> [WIRE]..."

/-- What the command does and which options it has.  This is a stand-in for the help that the
argument parser lays out, which is longer for `--help` than for `-h`; the wording of neither is
modelled. -/
def helpText : String :=
  "Evaluate a wire circuit description and print the resulting signals\n\n"
    ++ usage ++ "\n\n"
    ++ "Arguments:\n"
    ++ "  <FILE>     Circuit description to evaluate (`-` reads stdin)\n"
    ++ "  [WIRE]...  Wires to report, in this order (defaults to all wires)\n\n"
    ++ "Options:\n"
    ++ "      --order <ORDER>  Order used when every wire is reported [default: name] "
    ++ "[possible values: name, source]\n"
    ++ "      --tokens         Print the token stream and exit\n"
    ++ "      --ast            Print the parsed schematic tree and exit\n"
    ++ "  -v, --verbose        Report stage summaries on stderr\n"
    ++ "  -h, --help           Print help\n"
    ++ "  -V, --version        Print version\n"

/-- The outcome of a command line, given what was read for its input.  For help and for misuse the
exit status and the choice of the output are exact.  The text of a misuse is a stand-in, as the
help is: the argument parser words each misuse in its own way. -/
def outcome (invocation : Invocation) (source : Except ReadFailure String) : Outcome :=
  match invocation with
  | run request => (request.session source).outcome
  | version => ⟨0, "wires-cli 0.1.0\n", ""⟩
  | help => ⟨0, helpText, ""⟩
  | misuse => ⟨2, "", "error: invalid command line\n\n" ++ usage
      ++ "\n\nFor more information, try '--help'.\n"⟩

end Invocation

end BitwiseCircuit.Command
