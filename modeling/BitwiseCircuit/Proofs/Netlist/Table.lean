import BitwiseCircuit.Proofs.Gate.Mapping
import BitwiseCircuit.Proofs.Netlist.Mentions
import BitwiseCircuit.Proofs.Netlist.Refusal

/-!
# The table of a schematic

The wires of a netlist are those that its schematic mentions, numbered by their first mentions,
and each is driven as the statement says that has it as its result.

Main results:

- Definition `Expression.gate` is the gate of an expression whose literals are in range.
- Definition `Netlist.IsTableOf` describes the netlist of a schematic from the schematic alone,
  and Theorem `Netlist.isTableOf_ofSchematic` says that it is the one that is built.
-/

namespace BitwiseCircuit

/-! ## Gates -/

/-- The word that a literal in range writes. -/
def Numeral.word (numeral : Numeral) : Word :=
  Word.truncate (Word.decimal numeral.spelling)

/-- A literal in range has the word of the number that it writes. -/
theorem Numeral.InRange.toNat_word {numeral : Numeral} (h : numeral.InRange) :
    numeral.word.toNat = Word.decimal numeral.spelling := by
  rw [word, Word.toNat_truncate, Nat.mod_eq_of_lt h.2.2]

private theorem Numeral.eq_word_of_toWord {numeral : Numeral} {word : Word}
    (h : numeral.toWord = .ok word) : word = numeral.word := by
  rw [Numeral.word, ← Word.toNat_of_ofDecimal? (toWord_eq_ok_iff.mp h), Word.truncate_toNat]

/-- The gate of an expression with its literals in range, over the names in it. -/
def Expression.gate : Expression → Gate Mention
  | literal value => .buffer (.literal value.word)
  | wire source => .buffer (.wire source)
  | unary op operand => .unary op (.wire operand)
  | binary op left right => .binary op (.wire left) (.wire right)
  | shift op operand amount => .shift op (.wire operand) (.literal amount.word)

private theorem Expression.eq_gate_of_toGate {expression : Expression} {gate : Gate Mention}
    (h : expression.toGate = .ok gate) : gate = expression.gate := by
  cases expression with
  | literal value =>
      rcases exists_of_toGate_literal h with ⟨word, hword, rfl⟩
      rw [Expression.gate, Numeral.eq_word_of_toWord hword]
  | wire source =>
      cases h
      rfl
  | unary op operand =>
      cases h
      rfl
  | binary op left right =>
      cases h
      rfl
  | shift op operand amount =>
      rcases exists_of_toGate_shift h with ⟨word, hword, rfl⟩
      rw [Expression.gate, Numeral.eq_word_of_toWord hword]

namespace Netlist

variable {net : Netlist} {id : WireId} {schematic : Schematic} {statement : Statement}
  {driver : Driver}

/-! ## The table -/

/-- The netlist has a wire for each first mention of the schematic, in the same order, driven by
the gate of the statement that has it as its result, and nothing has been computed. -/
structure IsTableOf (net : Netlist) (schematic : Schematic) : Prop where
  mentions : net.wires.toList.map Wire.mention = schematic.firstMentions
  find?_iff : ∀ name id, net.find? name = some id ↔
    (schematic.firstMentions.map (·.name))[id]? = some name
  driver_iff : ∀ id wire, net.wire? id = some wire → ∀ driver, wire.driver = some driver ↔
    ∃ statement ∈ schematic.statements, statement.result.name = wire.name ∧
      driver = ⟨statement.expression.gate.map fun mention => schematic.numberOf mention.name,
        statement.result.position⟩
  literal : ∀ statement ∈ schematic.statements, ∀ numeral ∈ statement.expression.numerals,
    numeral.word.toNat = Word.decimal numeral.spelling
  value : ∀ id wire, net.wire? id = some wire → wire.value = none
  evaluations : net.evaluations = 0

/-- The driver that comes from a statement is the gate of the statement, over the numbers of the
wires. -/
theorem Implements.driver_eq (h : net.Implements statement id driver)
    (hfind : ∀ name id, net.find? name = some id ↔
      (schematic.firstMentions.map (·.name))[id]? = some name) :
    driver = ⟨statement.expression.gate.map fun mention => schematic.numberOf mention.name,
      statement.result.position⟩ := by
  rcases h.gate with ⟨gate, hgate, hrenamed⟩
  have hsame : gate.map (fun mention => schematic.numberOf mention.name) =
      driver.gate.map fun x => x :=
    hrenamed.map_eq fun mention _ x hx => Schematic.numberOf_eq ((hfind mention.name x).mp hx)
  rw [Gate.map_eq_self fun _ _ => rfl, Expression.eq_gate_of_toGate hgate] at hsame
  rw [hsame, ← h.position]

/-- A wire is driven exactly as the statement says that assigns it. -/
theorem Realizes.driver_eq_some_iff (h : net.Realizes schematic.statements)
    (hfind : ∀ name id, net.find? name = some id ↔
      (schematic.firstMentions.map (·.name))[id]? = some name) {wire : Wire}
    (hwire : net.wire? id = some wire) : wire.driver = some driver ↔
      ∃ statement ∈ schematic.statements, statement.result.name = wire.name ∧
        driver = ⟨statement.expression.gate.map fun mention => schematic.numberOf mention.name,
          statement.result.position⟩ := by
  rw [← driver?_of_wire? hwire]
  constructor
  · intro hdriver
    rcases h.driven id driver hdriver with ⟨statement, hmem, himplements⟩
    have hresult : net.IsNamed id statement.result.name :=
      (h.wellWired.find?_iff _ id).mp himplements.result
    have hnamed : net.IsNamed id wire.name := ⟨wire, hwire, rfl⟩
    exact ⟨statement, hmem, hresult.nameOf_eq.symm.trans hnamed.nameOf_eq,
      himplements.driver_eq hfind⟩
  · rintro ⟨statement, hmem, hname, rfl⟩
    rcases h.statement statement hmem with ⟨x, driver, hdriver, himplements⟩
    have hresult : net.IsNamed x wire.name :=
      hname ▸ (h.wellWired.find?_iff _ x).mp himplements.result
    obtain rfl : id = x := h.wellWired.eq_of_isNamed ⟨wire, hwire, rfl⟩ hresult
    rw [hdriver, himplements.driver_eq hfind]

/-- The netlist of a schematic is its table. -/
theorem isTableOf_ofSchematic (hbuilt : ofSchematic schematic = .ok net) :
    net.IsTableOf schematic := by
  have hrealizes := realizes_ofSchematic hbuilt
  have hmentions := mentions_ofSchematic hbuilt
  have hacceptable := exists_ofSchematic_eq_ok_iff_acceptable.mp ⟨net, hbuilt⟩
  have hfind : ∀ name id, net.find? name = some id ↔
      (schematic.firstMentions.map (·.name))[id]? = some name := by
    intro name id
    rw [← hmentions, hrealizes.wellWired.find?_eq_some_iff]
  refine ⟨hmentions, hfind, fun id wire hwire driver => hrealizes.driver_eq_some_iff hfind hwire,
    fun statement hmem numeral hnumeral =>
      (hacceptable.literals statement hmem numeral hnumeral).toNat_word,
    fun id wire hwire => ?_, hrealizes.evaluations⟩
  rw [← value?_of_wire? hwire, hrealizes.value]

end Netlist

end BitwiseCircuit
