import BitwiseCircuit.Command.Session
import BitwiseCircuit.Proofs.Schematic.Outline
import BitwiseCircuit.Proofs.Token.Coverage

/-!
# What is shown can be read back

The command shows tokens and trees without escaping anything, and without saying how many tokens,
statements or operands there are.  As long as no spelling has a newline, nothing is lost: different
lists of tokens, and different schematics, are shown differently.

Main results:

- Theorem `Command.Request.showTokens_inj`: what is shown of tokens gives back the tokens.
- Theorem `Command.toTree_and_showTokens_inj`: so do trees, and the tokens of a text are never
  broken by a newline.
-/

namespace BitwiseCircuit

variable {tokens tokens' : List Token}

/-- No token of a text has a newline. -/
theorem Lexicon.newline_not_mem_of_tokenize {lexicon : Lexicon} {text : String}
    (h : lexicon.tokenize text = .ok tokens) : ∀ token ∈ tokens, '\n' ∉ token.spelling.toList := by
  intro token htoken hmem
  have hsolid := (cover_of_tokenize h).solid token htoken '\n' hmem
  rw [Text.isBlank_newline] at hsolid
  cases hsolid

namespace Command

/-- What is shown of tokens gives back the tokens. -/
theorem Request.showTokens_inj (h : ∀ token ∈ tokens, '\n' ∉ token.spelling.toList)
    (h' : ∀ token ∈ tokens', '\n' ∉ token.spelling.toList) :
    showTokens tokens = showTokens tokens' ↔ tokens = tokens' := by
  refine ⟨fun hshown => ?_, fun heq => heq ▸ rfl⟩
  refine Text.join_inj toString (fun token htoken => ?_) (fun token htoken => ?_) ?_ hshown
  · exact Token.newline_not_mem_toString (h token htoken)
  · exact Token.newline_not_mem_toString (h' token htoken)
  · exact fun _ _ _ _ => Token.toString_inj.mp

/-- The tree of a schematic and what is shown of tokens lose nothing, if no name, no literal and no
spelling has a newline; and no token of a text has one. -/
theorem toTree_and_showTokens_inj :
    (∀ schematic schematic' : Schematic, schematic.Unbroken → schematic'.Unbroken →
      (schematic.toTree = schematic'.toTree ↔ schematic = schematic')) ∧
    (∀ tokens tokens' : List Token, (∀ token ∈ tokens, '\n' ∉ token.spelling.toList) →
      (∀ token ∈ tokens', '\n' ∉ token.spelling.toList) →
      (Request.showTokens tokens = Request.showTokens tokens' ↔ tokens = tokens')) ∧
    ∀ (lexicon : Lexicon) (text : String) (tokens : List Token),
      lexicon.tokenize text = .ok tokens → ∀ token ∈ tokens, '\n' ∉ token.spelling.toList :=
  ⟨fun _ _ => Schematic.toTree_inj, fun _ _ => Request.showTokens_inj,
    fun _ _ _ => Lexicon.newline_not_mem_of_tokenize⟩

/-- A statement that reads a wire whose name looks like the end of a leaf. -/
def imitation : Schematic :=
  ⟨[⟨.wire ⟨"a' 1:1)", ⟨1, 1⟩⟩, ⟨"b", ⟨1, 6⟩⟩⟩]⟩

/-- A statement that reads the wire `a`. -/
def imitated : Schematic :=
  ⟨[⟨.wire ⟨"a", ⟨1, 1⟩⟩, ⟨"b", ⟨1, 6⟩⟩⟩]⟩

/-- The two are told apart by their trees, and one token that looks like two is told apart from
two tokens. -/
theorem imitation_toTree_ne :
    imitation.Unbroken ∧ imitated.Unbroken ∧ imitation.toTree ≠ imitated.toTree ∧
      Request.showTokens [⟨.wire, "a' 1:1) (Wire 'b", ⟨1, 6⟩⟩] ≠
        Request.showTokens [⟨.wire, "a", ⟨1, 1⟩⟩, ⟨.wire, "b", ⟨1, 6⟩⟩] := by
  have himitation : imitation.Unbroken := by
    simp [Schematic.Unbroken, imitation, Statement.mentions, Expression.operands,
      Expression.numerals]
  have himitated : imitated.Unbroken := by
    simp [Schematic.Unbroken, imitated, Statement.mentions, Expression.operands,
      Expression.numerals]
  have htrees := toTree_and_showTokens_inj.1 _ _ himitation himitated
  have htokens := toTree_and_showTokens_inj.2.1
    [⟨.wire, "a' 1:1) (Wire 'b", ⟨1, 6⟩⟩] [⟨.wire, "a", ⟨1, 1⟩⟩, ⟨.wire, "b", ⟨1, 6⟩⟩]
    (by simp) (by simp)
  exact ⟨himitation, himitated, htrees.not.mpr (by decide), htokens.not.mpr (by decide)⟩

end Command

end BitwiseCircuit
