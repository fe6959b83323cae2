import BitwiseCircuit.Netlist

/-!
# Command lines

A command line names the input, then the wires to report, with options anywhere
between them.  It is read from left to right, and the first thing that decides
what happens ends the reading: a mistake, or a request for the version or for
help.  After a double dash every argument is a name.

Main results:

- Definition `Argument.ofWords` splits the words of a command line into
  arguments; letters after one dash are options of their own.
- Definition `Invocation.ofWords` is what a command line asks for.
-/

namespace BitwiseCircuit.Command

/-! ## What can be asked for -/

/-- What is shown of a circuit. -/
inductive Subject where
  /-- The words of its wires. -/
  | values
  /-- Its tokens. -/
  | tokens
  /-- Its schematic as a tree. -/
  | tree
deriving DecidableEq, Repr

/-- A request to read a circuit and show something of it. -/
structure Request where
  /-- The file that holds the circuit; a dash stands for the standard input. -/
  input : String
  /-- The wires to report; all of them if none is named. -/
  wires : List String
  /-- The order in which all wires are reported. -/
  order : Netlist.Order
  /-- What is shown. -/
  subject : Subject
  /-- Whether each stage is reported as it is completed. -/
  verbose : Bool
deriving DecidableEq, Repr

/-- What a command line asks for. -/
inductive Invocation where
  | run (request : Request)
  | version
  | help
  /-- The command line has no meaning. -/
  | misuse
deriving DecidableEq, Repr

/-! ## Arguments -/

/-- The options that are given or not given. -/
inductive Flag where
  | tokens
  | tree
  | verbose
deriving DecidableEq, Repr

/-- One argument of a command line. -/
inductive Argument where
  /-- The name of the input or of a wire. -/
  | name (text : String)
  | flag (flag : Flag)
  | order (value : String)
  | version
  | help
  /-- An option that does not exist or is not written as it must be. -/
  | unknown
deriving DecidableEq, Repr

namespace Argument

/-- The option that one letter after a dash stands for. -/
def ofLetter : Char → Argument
  | 'v' => flag .verbose
  | 'V' => version
  | 'h' => help
  | _ => unknown

/-- The option that is spelled out after two dashes. -/
def ofOption (option : List Char) : Argument :=
  match String.ofList option with
  | "tokens" => flag .tokens
  | "ast" => flag .tree
  | "verbose" => flag .verbose
  | "version" => version
  | "help" => help
  | _ =>
    if "order=".toList.isPrefixOf option then
      order (String.ofList (option.drop "order=".length))
    else
      unknown

/-- The arguments that one word holds; a dash alone is a name. -/
def ofWord (word : String) : List Argument :=
  match word.toList with
  | '-' :: '-' :: option => [ofOption option]
  | '-' :: letter :: letters => (letter :: letters).map ofLetter
  | _ => [name word]

/-- The arguments of a command line.  The order may be a word of its own, which
then may not begin with a dash. -/
def ofWords : List String → List Argument
  | [] => []
  | "--" :: words => words.map name
  | "--order" :: value :: words =>
    (if "-".toList.isPrefixOf value.toList then unknown else order value) :: ofWords words
  | word :: words => ofWord word ++ ofWords words

end Argument

/-! ## Reading the arguments -/

/-- What the arguments read so far say. -/
structure Draft where
  names : Array String
  order : Option Netlist.Order
  tokens : Bool
  tree : Bool
  verbose : Bool
deriving DecidableEq, Repr

namespace Draft

/-- Nothing is said yet. -/
def start : Draft := ⟨#[], none, false, false, false⟩

/-- Takes in one argument, unless it decides what is asked for; no option may be
given twice. -/
def take (draft : Draft) : Argument → Except Invocation Draft
  | .name text => .ok { draft with names := draft.names.push text }
  | .flag .tokens => if draft.tokens then .error .misuse else .ok { draft with tokens := true }
  | .flag .tree => if draft.tree then .error .misuse else .ok { draft with tree := true }
  | .flag .verbose =>
    if draft.verbose then .error .misuse else .ok { draft with verbose := true }
  | .order value =>
    match draft.order, value with
    | none, "name" => .ok { draft with order := some .byName }
    | none, "source" => .ok { draft with order := some .byMention }
    | _, _ => .error .misuse
  | .version => .error .version
  | .help => .error .help
  | .unknown => .error .misuse

/-- What is asked for by all arguments together: there must be an input, and at
most one thing other than values to show. -/
def finish (draft : Draft) : Invocation :=
  match draft.names.toList with
  | [] => .misuse
  | input :: wires =>
    let request (subject : Subject) : Invocation :=
      .run ⟨input, wires, draft.order.getD .byName, subject, draft.verbose⟩
    match draft.tokens, draft.tree with
    | true, true => .misuse
    | true, false => request .tokens
    | false, true => request .tree
    | false, false => request .values

end Draft

/-- What a command line asks for. -/
def Invocation.ofWords (words : List String) : Invocation :=
  match (Argument.ofWords words).foldlM Draft.take Draft.start with
  | .ok draft => draft.finish
  | .error invocation => invocation

end BitwiseCircuit.Command
