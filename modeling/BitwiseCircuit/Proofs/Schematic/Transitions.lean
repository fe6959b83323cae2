import Mathlib.Tactic.ByContra
import BitwiseCircuit.Schematic.Grammar

/-!
# One token of a statement

A token makes a prefix of a statement longer, or completes it.  There are eleven ways in
which this can happen, and in every other case the token is a fault.

Main results:

- Definition `StatementPrefix.Reads` lists what a token can make of a prefix; Theorem
  `StatementPrefix.reads_iff` says that this is what is read.
- Theorem `StatementPrefix.kind_mem_expected`: what is read is of a kind that is expected.
- Theorems `StatementPrefix.exists_read_eq_ok` and `StatementPrefix.of_read_eq_error`: where
  keywords spell operators, the kind of a token alone decides whether it is read.
-/

namespace BitwiseCircuit

/-- A token that is a keyword spells an operator of its sort, and the operator is written
as the token is. -/
structure Token.SpellsOperator (token : Token) : Prop where
  unary : token.kind = .unaryKeyword →
    ∃ op, UnaryOp.ofKeyword? token.spelling = some op ∧ op.keyword = token.spelling
  binary : token.kind = .binaryKeyword →
    ∃ op, BinaryOp.ofKeyword? token.spelling = some op ∧ op.keyword = token.spelling
  shift : token.kind = .shiftKeyword →
    ∃ op, ShiftOp.ofKeyword? token.spelling = some op ∧ op.keyword = token.spelling

namespace StatementPrefix

variable {before : StatementPrefix} {token : Token} {progress : Progress} {fault : GrammarFault}

/-- What a token can make of a prefix of a statement. -/
inductive Reads (token : Token) : StatementPrefix → Progress → Prop where
  | number (hkind : token.kind = .number) :
      Reads token start (.more (expression (.literal (.ofToken token))))
  | wire (hkind : token.kind = .wire) : Reads token start (.more (wire (.ofToken token)))
  | unary {op : UnaryOp} (hkind : token.kind = .unaryKeyword)
      (hkeyword : token.spelling = op.keyword) : Reads token start (.more (unary op))
  | source {left : Mention} (hkind : token.kind = .arrow) :
      Reads token (.wire left) (.more (arrow (.wire left)))
  | binary {op : BinaryOp} {left : Mention} (hkind : token.kind = .binaryKeyword)
      (hkeyword : token.spelling = op.keyword) : Reads token (.wire left) (.more (binary op left))
  | shift {op : ShiftOp} {left : Mention} (hkind : token.kind = .shiftKeyword)
      (hkeyword : token.spelling = op.keyword) : Reads token (.wire left) (.more (shift op left))
  | operand {op : UnaryOp} (hkind : token.kind = .wire) :
      Reads token (.unary op) (.more (expression (.unary op (.ofToken token))))
  | right {op : BinaryOp} {left : Mention} (hkind : token.kind = .wire) :
      Reads token (.binary op left) (.more (expression (.binary op left (.ofToken token))))
  | amount {op : ShiftOp} {left : Mention} (hkind : token.kind = .number) :
      Reads token (.shift op left) (.more (expression (.shift op left (.ofToken token))))
  | arrow {e : Expression} (hkind : token.kind = .arrow) :
      Reads token (expression e) (.more (arrow e))
  | result {e : Expression} (hkind : token.kind = .wire) :
      Reads token (.arrow e) (.whole ⟨e, .ofToken token⟩)

private theorem readKeyword_eq_ok_iff {Op : Type} {ofKeyword? : String → Option Op}
    {next : Op → StatementPrefix} : readKeyword ofKeyword? token next = .ok progress ↔
      ∃ op, ofKeyword? token.spelling = some op ∧ .more (next op) = progress := by
  cases hop : ofKeyword? token.spelling <;> simp [readKeyword, hop]

/-- Whatever may be read is read. -/
theorem Reads.read_eq (h : Reads token before progress) : before.read token = .ok progress := by
  cases h with
  | unary hkind hkeyword =>
      simp only [read, hkind]
      exact readKeyword_eq_ok_iff.mpr ⟨_, UnaryOp.ofKeyword?_eq_some_iff.mpr hkeyword, rfl⟩
  | binary hkind hkeyword =>
      simp only [read, hkind]
      exact readKeyword_eq_ok_iff.mpr ⟨_, BinaryOp.ofKeyword?_eq_some_iff.mpr hkeyword, rfl⟩
  | shift hkind hkeyword =>
      simp only [read, hkind]
      exact readKeyword_eq_ok_iff.mpr ⟨_, ShiftOp.ofKeyword?_eq_some_iff.mpr hkeyword, rfl⟩
  | _ hkind => simp only [read, hkind]

/-- A token that is read is one of those that a prefix can read. -/
theorem reads_iff : Reads token before progress ↔ before.read token = .ok progress := by
  refine ⟨Reads.read_eq, fun h => ?_⟩
  unfold read at h
  split at h
  case h_3 hkind =>
    rcases readKeyword_eq_ok_iff.mp h with ⟨op, hop, rfl⟩
    exact .unary hkind (UnaryOp.ofKeyword?_eq_some_iff.mp hop)
  case h_5 hkind =>
    rcases readKeyword_eq_ok_iff.mp h with ⟨op, hop, rfl⟩
    exact .binary hkind (BinaryOp.ofKeyword?_eq_some_iff.mp hop)
  case h_6 hkind =>
    rcases readKeyword_eq_ok_iff.mp h with ⟨op, hop, rfl⟩
    exact .shift hkind (ShiftOp.ofKeyword?_eq_some_iff.mp hop)
  case h_12 => cases h
  all_goals
    cases h
    constructor
    assumption

/-- Only tokens of a kind that is expected are read. -/
theorem kind_mem_expected (h : before.read token = .ok progress) :
    token.kind ∈ before.expected := by
  by_contra hnot
  rw [read_eq_error_of_not_mem hnot] at h
  cases h

/-- Where keywords spell operators, a token of a kind that is expected is read. -/
theorem exists_read_eq_ok (htoken : token.SpellsOperator) (hkind : token.kind ∈ before.expected) :
    ∃ progress, before.read token = .ok progress := by
  simp only [← reads_iff]
  cases before with
  | start =>
      simp only [expected, List.mem_cons, List.not_mem_nil, or_false] at hkind
      rcases hkind with hkind | hkind | hkind
      · exact ⟨_, .number hkind⟩
      · exact ⟨_, .wire hkind⟩
      · rcases htoken.unary hkind with ⟨op, -, hkeyword⟩
        exact ⟨_, .unary hkind hkeyword.symm⟩
  | wire left =>
      simp only [expected, List.mem_cons, List.not_mem_nil, or_false] at hkind
      rcases hkind with hkind | hkind | hkind
      · exact ⟨_, .source hkind⟩
      · rcases htoken.binary hkind with ⟨op, -, hkeyword⟩
        exact ⟨_, .binary hkind hkeyword.symm⟩
      · rcases htoken.shift hkind with ⟨op, -, hkeyword⟩
        exact ⟨_, .shift hkind hkeyword.symm⟩
  | unary op => exact ⟨_, .operand (List.mem_singleton.mp hkind)⟩
  | binary op left => exact ⟨_, .right (List.mem_singleton.mp hkind)⟩
  | shift op left => exact ⟨_, .amount (List.mem_singleton.mp hkind)⟩
  | expression e => exact ⟨_, .arrow (List.mem_singleton.mp hkind)⟩
  | arrow e => exact ⟨_, .result (List.mem_singleton.mp hkind)⟩

/-- Where keywords spell operators, a token that is not read is of a kind that is not
expected, and the fault says so. -/
theorem of_read_eq_error (htoken : token.SpellsOperator) (h : before.read token = .error fault) :
    token.kind ∉ before.expected ∧ fault = .unexpectedToken before.expected token := by
  have hkind : token.kind ∉ before.expected := by
    intro hkind
    rcases exists_read_eq_ok htoken hkind with ⟨progress, hread⟩
    rw [hread] at h
    cases h
  rw [read_eq_error_of_not_mem hkind] at h
  cases h
  exact ⟨hkind, rfl⟩

end StatementPrefix

end BitwiseCircuit
