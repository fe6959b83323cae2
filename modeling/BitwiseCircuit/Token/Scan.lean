import BitwiseCircuit.Text.Blank
import BitwiseCircuit.Token.Fault
import BitwiseCircuit.Token.Lexicon

/-!
# Scanning a text for tokens

A scanner reads a text one character at a time.  Blanks separate fragments; a
number sign between two fragments starts a comment that runs to the end of its
line; every other character belongs to a fragment.  A fragment keeps the rules
of the lexicon that it still fits, and becomes a token once it ends while it
fits exactly one rule and is complete for it.

Main results:

- Definition `Scanner.step` reads one character, and `Scanner.finish` treats
  the end of the text as the end of a fragment.
- Definition `Lexicon.tokenize` reads a whole text with a given lexicon;
  `tokenize` does so with the standard one.
-/

namespace BitwiseCircuit

/-! ## Fragments -/

/-- A fragment that has not ended: where it starts, its characters so far, the
first rule that they fit, and the other rules that they fit. -/
structure Fragment where
  start : Position
  spelling : String
  rule : Rule
  rivals : List Rule
deriving DecidableEq, Repr

namespace Fragment

/-- The rules that a fragment fits, in the order of the lexicon. -/
def rules (fragment : Fragment) : List Rule :=
  fragment.rule :: fragment.rivals

/-- The fragment made of `spelling` and the character `c` found at `here`, if
one of the rules that `spelling` fits admits it. -/
def extend (rules : List Rule) (start : Position) (spelling : String)
    (here : Position) (c : Char) : Except TokenFault Fragment :=
  match rules.filter (·.shape.admits spelling c) with
  | [] => .error (.noMatch here c spelling)
  | rule :: rivals => .ok ⟨start, spelling.push c, rule, rivals⟩

/-- The fragment that one character starts. -/
def ofChar (lexicon : Lexicon) (here : Position) (c : Char) : Except TokenFault Fragment :=
  extend lexicon here "" here c

/-- The fragment with one more character. -/
def push (fragment : Fragment) (here : Position) (c : Char) : Except TokenFault Fragment :=
  extend fragment.rules fragment.start fragment.spelling here c

/-- The token that a fragment is once it has ended. -/
def close (fragment : Fragment) : Except TokenFault Token :=
  match fragment.rivals with
  | [] =>
    if fragment.rule.shape.completes fragment.spelling then
      .ok ⟨fragment.rule.kind, fragment.spelling, fragment.start⟩
    else
      .error (.unterminated fragment.start fragment.spelling fragment.rule.kind)
  | _ :: _ =>
    .error (.ambiguous fragment.start fragment.spelling (fragment.rules.map (·.kind)))

end Fragment

/-! ## The scanner -/

/-- What a scanner is in the middle of. -/
inductive ScanMode where
  /-- Neither a fragment nor a comment is open. -/
  | between
  /-- The rest of the line is a comment. -/
  | comment
  /-- A fragment is open. -/
  | within (fragment : Fragment)
deriving DecidableEq, Repr

/-- A scanner: the place of the next character, what it is in the middle of, and
the tokens found so far. -/
structure Scanner where
  position : Position
  mode : ScanMode
  tokens : Array Token
deriving DecidableEq, Repr

namespace Scanner

/-- The scanner at the start of a text. -/
def start : Scanner := ⟨.first, .between, #[]⟩

/-- Reads one character. -/
def step (lexicon : Lexicon) (scanner : Scanner) (c : Char) : Except TokenFault Scanner :=
  let ⟨here, mode, tokens⟩ := scanner
  let next := here.next c
  match mode with
  | .comment => .ok ⟨next, if c = '\n' then .between else .comment, tokens⟩
  | .between =>
    if Text.isBlank c then
      .ok ⟨next, .between, tokens⟩
    else if c = '#' then
      .ok ⟨next, .comment, tokens⟩
    else do
      let fragment ← Fragment.ofChar lexicon here c
      return ⟨next, .within fragment, tokens⟩
  | .within fragment =>
    if Text.isBlank c then do
      let token ← fragment.close
      return ⟨next, .between, tokens.push token⟩
    else do
      let longer ← fragment.push here c
      return ⟨next, .within longer, tokens⟩

/-- The tokens of the text that ends here; the end of a text ends a fragment
just as a blank does. -/
def finish (scanner : Scanner) : Except TokenFault (List Token) :=
  match scanner.mode with
  | .between | .comment => .ok scanner.tokens.toList
  | .within fragment => do
    let token ← fragment.close
    return (scanner.tokens.push token).toList

end Scanner

/-! ## Whole texts -/

/-- The tokens of a text, read with a given lexicon. -/
def Lexicon.tokenize (lexicon : Lexicon) (text : String) : Except TokenFault (List Token) := do
  let scanner ← text.toList.foldlM (Scanner.step lexicon) Scanner.start
  scanner.finish

/-- The tokens of a circuit text. -/
def tokenize (text : String) : Except TokenFault (List Token) :=
  Lexicon.standard.tokenize text

end BitwiseCircuit
