import BitwiseCircuit.Proofs.Evaluation.Stages
import BitwiseCircuit.Proofs.Resolution.Report
import BitwiseCircuit.Proofs.Schematic.Mentions
import BitwiseCircuit.Proofs.Word.Arithmetic

/-!
# Circuits as systems of equations

A statement can be read as an equation between the numbers on its wires, with no mention
of words, gates or the order of statements.  Evaluating a text solves the equations of
its statements: the report is the only solution that they have.

Main results:

- Definitions `Expression.calculate` and `Statement.HoldsFor` read a statement as an
  equation, and `Schematic.SolvedBy` all statements of a schematic.
- Theorem `Netlist.Realizes.eq_of_solved`: a solution agrees with the words that the
  wiring gives, and Theorem `Netlist.Realizes.solved`: these words are a solution.
- Theorem `evaluate_unique_solution`: the report of a text lists the wires that it names,
  and the numbers that solve the equations are those of the report.
-/

namespace BitwiseCircuit

/-! ## Statements as equations -/

/-- The number that a literal spells. -/
def Numeral.number (numeral : Numeral) : Nat :=
  Word.decimal numeral.spelling

/-- The number of an expression, given the number on each wire. -/
def Expression.calculate (numbers : String → Nat) : Expression → Nat
  | literal value => value.number
  | wire source => numbers source.name
  | unary op operand => op.calculate (numbers operand.name)
  | binary op left right => op.calculate (numbers left.name) (numbers right.name)
  | shift op operand amount => op.calculate (numbers operand.name) amount.number

/-- The numbers on the wires fulfil the statement. -/
def Statement.HoldsFor (statement : Statement) (numbers : String → Nat) : Prop :=
  numbers statement.result.name = statement.expression.calculate numbers

/-- The numbers on the wires fulfil all statements. -/
def Schematic.SolvedBy (schematic : Schematic) (numbers : String → Nat) : Prop :=
  ∀ statement ∈ schematic.statements, statement.HoldsFor numbers

variable {numbers : String → Nat}

/-- A literal becomes the word of its number. -/
theorem Numeral.toNat_of_toWord {numeral : Numeral} {word : Word}
    (h : numeral.toWord = .ok word) : word.toNat = numeral.number :=
  Word.toNat_of_ofDecimal? (toWord_eq_ok_iff.mp h)

/-- The gate of an expression computes the number of the expression. -/
theorem Expression.calculate_eq_toNat_eval {expression : Expression} {gate : Gate Mention}
    {word : Mention → Word} (h : expression.toGate = .ok gate)
    (hnumbers : ∀ mention ∈ gate.wires, numbers mention.name = (word mention).toNat) :
    expression.calculate numbers = (gate.eval word).toNat := by
  rw [wires_of_toGate h] at hnumbers
  cases expression with
  | literal value =>
      rcases exists_of_toGate_literal h with ⟨literal, hword, rfl⟩
      exact (Numeral.toNat_of_toWord hword).symm
  | wire source =>
      cases h
      exact hnumbers source (by simp [operands])
  | unary op operand =>
      cases h
      rw [Gate.eval_unary, UnaryOp.toNat_apply, calculate, hnumbers operand (by simp [operands])]
      rfl
  | binary op left right =>
      cases h
      rw [Gate.eval_binary, BinaryOp.toNat_apply, calculate, hnumbers left (by simp [operands]),
        hnumbers right (by simp [operands])]
      rfl
  | shift op operand amount =>
      rcases exists_of_toGate_shift h with ⟨literal, hword, rfl⟩
      rw [Gate.eval_shift, ShiftOp.toNat_apply, calculate,
        hnumbers operand (by simp [operands]), ← Numeral.toNat_of_toWord hword]
      rfl

/-! ## Solutions -/

namespace Netlist

variable {net : Netlist} {statements : List Statement} {statement : Statement} {id : WireId}
  {driver : Driver} {name : String} {value : Word}

/-- The gate that implements a statement computes the number of the statement's
expression. -/
theorem Implements.calculate_eq (h : net.Implements statement id driver) {word : WireId → Word}
    (hnumbers : ∀ y ∈ driver.gate.wires, ∀ name, net.find? name = some y →
      numbers name = (word y).toNat) :
    statement.expression.calculate numbers = (driver.gate.eval word).toNat := by
  rcases h.gate with ⟨gate, hgate, hrenamed⟩
  let named : Mention → Word := fun mention => ((net.find? mention.name).map word).getD 0
  have heval : gate.eval named = driver.gate.eval word := by
    refine hrenamed.eval_eq fun mention _ y hfind => ?_
    simp [named, hfind]
  rw [← heval]
  refine Expression.calculate_eq_toNat_eval hgate fun mention hmem => ?_
  have hmap : net.find? mention.name ∈ driver.gate.wires.map some := by
    rw [← hrenamed.map_wires]
    exact List.mem_map_of_mem hmem
  rcases List.mem_map.mp hmap with ⟨y, hy, hfind⟩
  rw [hnumbers y hy mention.name hfind.symm]
  simp [named, ← hfind]

/-- A solution agrees with the words that the wiring gives. -/
theorem Realizes.eq_of_solved (h : net.Realizes statements)
    (hsolved : ∀ statement ∈ statements, statement.HoldsFor numbers)
    (hdenotes : net.Denotes id value) (hnamed : net.IsNamed id name) :
    numbers name = value.toNat := by
  induction hdenotes generalizing name with
  | @gate id driver word hdriver hwires ih =>
      rcases h.driven id driver hdriver with ⟨statement, hmem, himplements⟩
      have hresult : net.IsNamed id statement.result.name :=
        (h.wellWired.find?_iff _ _).mp himplements.result
      have hname : name = statement.result.name := by
        rw [← hnamed.nameOf_eq, hresult.nameOf_eq]
      calc
        numbers name = statement.expression.calculate numbers := by
          rw [hname]
          exact hsolved statement hmem
        _ = (driver.gate.eval word).toNat := by
          refine himplements.calculate_eq fun y hy operand hfind => ?_
          exact ih y hy ((h.wellWired.find?_iff _ _).mp hfind)

/-- Where the wiring gives a word for each wire, these words are a solution. -/
theorem Realizes.solved (h : net.Realizes statements)
    (hall : ∀ id name, net.IsNamed id name → ∃ value, net.Denotes id value)
    (hnumbers : ∀ id name value, net.IsNamed id name → net.Denotes id value →
      numbers name = value.toNat) :
    ∀ statement ∈ statements, statement.HoldsFor numbers := by
  intro statement hmem
  rcases h.statement statement hmem with ⟨id, driver, hdriver, himplements⟩
  have hresult : net.IsNamed id statement.result.name :=
    (h.wellWired.find?_iff _ _).mp himplements.result
  rcases hall id statement.result.name hresult with ⟨value, hdenotes⟩
  cases hdenotes with
  | @gate _ driver' word hdriver' hwires =>
      obtain rfl : driver = driver' := Option.some.inj (hdriver.symm.trans hdriver')
      calc
        numbers statement.result.name = (driver.gate.eval word).toNat :=
          hnumbers id _ _ hresult (.gate word hdriver hwires)
        _ = statement.expression.calculate numbers := by
          refine (himplements.calculate_eq fun y hy operand hfind => ?_).symm
          exact hnumbers y operand (word y) ((h.wellWired.find?_iff _ _).mp hfind) (hwires y hy)

end Netlist

/-! ## Texts -/

/-- The number that a report gives for a wire; zero if the wire is not in it. -/
def Report.numberOf (report : Report) (name : String) : Nat :=
  ((report.find? (·.1 == name)).map (·.2.toNat)).getD 0

/-- The number of a wire in a report is at most 65535. -/
theorem Report.numberOf_le (report : Report) (name : String) :
    Report.numberOf report name ≤ 65535 := by
  rw [numberOf]
  cases report.find? (·.1 == name) with
  | none => simp
  | some entry => exact Nat.le_of_lt_succ entry.2.isLt

/-- A report of all wires gives the numbers in its entries. -/
theorem Netlist.Tabulates.numberOf_eq {net : Netlist} {report : Report} {entry : String × Word}
    (h : net.Tabulates report) (hwired : net.WellWired) (hmem : entry ∈ report) :
    Report.numberOf report entry.1 = entry.2.toNat := by
  cases hfind : report.find? (·.1 == entry.1) with
  | none =>
      have hnot := List.find?_eq_none.mp hfind entry hmem
      simp at hnot
  | some found =>
      have hname : found.1 = entry.1 := by simpa using List.find?_some hfind
      rcases (h.mem_iff found.1 found.2).mp (List.mem_of_find?_eq_some hfind) with
        ⟨x, hx, hxdenotes⟩
      rcases (h.mem_iff entry.1 entry.2).mp hmem with ⟨y, hy, hydenotes⟩
      have heq : x = y := hwired.eq_of_isNamed (hname ▸ hx) hy
      subst heq
      rw [Report.numberOf, hfind, Option.map_some, Option.getD_some, hxdenotes.unique hydenotes]

/-- Evaluating a text, if it succeeds, reports each wire that the text names once, and
the numbers that solve the equations of its statements are exactly those of the report;
so there is a solution among the numbers below 65536, and no other. -/
theorem evaluate_unique_solution {text : String} {order : Netlist.Order} {report : Report}
    (h : evaluate text [] order = .ok report) :
    ∃ tokens schematic, tokenize text = .ok tokens ∧
      Schematic.ofTokens tokens = .ok schematic ∧
      (report.map Prod.fst).Nodup ∧
      (∀ name, name ∈ report.map Prod.fst ↔
        ∃ token ∈ tokens, token.kind = .wire ∧ token.spelling = name) ∧
      (∀ numbers, schematic.SolvedBy numbers ↔
        ∀ entry ∈ report, numbers entry.1 = entry.2.toNat) ∧
      ∃ numbers, schematic.SolvedBy numbers ∧ ∀ name, numbers name ≤ 65535 := by
  rcases exists_of_evaluate h with ⟨circuit, hcircuit, hreport⟩
  rcases Circuit.exists_of_ofText hcircuit with ⟨tokens, htokens, hschematic, hnetlist⟩
  have hrealizes := Netlist.realizes_ofSchematic hnetlist
  have hcoherent := (Netlist.Reachable.built hnetlist).coherent
  have htabulates := hcoherent.tabulates hreport
  have hsolutions : ∀ numbers, circuit.schematic.SolvedBy numbers ↔
      ∀ entry ∈ report, numbers entry.1 = entry.2.toNat := by
    intro numbers
    constructor
    · rintro hsolved ⟨name, value⟩ hmem
      rcases (htabulates.mem_iff name value).mp hmem with ⟨id, hnamed, hdenotes⟩
      exact hrealizes.eq_of_solved hsolved hdenotes hnamed
    · intro hentries
      refine hrealizes.solved (fun id name hnamed => ?_) fun id name value hnamed hdenotes => ?_
      · rcases htabulates.exists_mem id name hnamed with ⟨value, hmem⟩
        rcases (htabulates.mem_iff name value).mp hmem with ⟨x, hx, hdenotes⟩
        exact ⟨value, hcoherent.eq_of_isNamed hx hnamed ▸ hdenotes⟩
      · exact hentries (name, value) ((htabulates.mem_iff name value).mpr ⟨id, hnamed, hdenotes⟩)
  have hnames : ∀ name, name ∈ report.map Prod.fst ↔
      ∃ token ∈ tokens, token.kind = .wire ∧ token.spelling = name := by
    intro name
    calc
      name ∈ report.map Prod.fst ↔ ∃ id, circuit.netlist.IsNamed id name :=
        htabulates.mem_names_iff name
      _ ↔ (circuit.netlist.find? name).isSome := by
        simp only [Option.isSome_iff_exists, hcoherent.find?_iff]
      _ ↔ ∃ statement ∈ circuit.schematic.statements,
            ∃ mention ∈ statement.mentions, mention.name = name :=
        hrealizes.mentioned name
      _ ↔ ∃ token ∈ tokens, token.kind = .wire ∧ token.spelling = name :=
        Schematic.exists_mention_iff hschematic name
  refine ⟨tokens, circuit.schematic, htokens, hschematic, htabulates.nodup, hnames, hsolutions,
    Report.numberOf report, (hsolutions _).mpr fun entry hmem => ?_, Report.numberOf_le report⟩
  exact htabulates.numberOf_eq hcoherent.toWellWired hmem

/-- A text whose first statement reads a wire that is assigned after it, with its one
solution. -/
theorem halved_unique_solution :
    ∃ tokens schematic, tokenize "w RSHIFT 1 -> x\n5 -> w\nNOT x -> y" = .ok tokens ∧
      Schematic.ofTokens tokens = .ok schematic ∧
      ∀ numbers, schematic.SolvedBy numbers ↔
        numbers "w" = 5 ∧ numbers "x" = 2 ∧ numbers "y" = 65533 := by
  have hevaluate : evaluate "w RSHIFT 1 -> x\n5 -> w\nNOT x -> y" [] .byName =
      .ok [("w", 5), ("x", 2), ("y", 65533)] := by decide +kernel
  rcases evaluate_unique_solution hevaluate with
    ⟨tokens, schematic, htokens, hschematic, -, -, hsolutions, -⟩
  refine ⟨tokens, schematic, htokens, hschematic, fun numbers => ?_⟩
  simpa using hsolutions numbers

end BitwiseCircuit
