import BitwiseCircuit.Proofs.Evaluation.Stages
import BitwiseCircuit.Proofs.Netlist.Acceptance
import BitwiseCircuit.Proofs.Netlist.Mentions
import BitwiseCircuit.Proofs.Resolution.Cycle
import BitwiseCircuit.Proofs.Resolution.Outcome
import BitwiseCircuit.Proofs.Resolution.Pointwise
import BitwiseCircuit.Proofs.Schematic.Mentions
import BitwiseCircuit.Proofs.Schematic.ViablePrefix
import BitwiseCircuit.Proofs.Text.Places
import BitwiseCircuit.Proofs.Token.Standard

/-!
# Faults and the places that they name

A place goes a long way from the scanner to a reader: into a token, a schematic, the table of
wires, and a fault.  Along this way it stays the place of what the fault is about.

Main results:

- Definitions `TokenFault.LocatedIn`, `GrammarFault.LocatedIn` and `WireFault.LocatedIn` say what
  a text has to read at the places that a fault names.
- Theorem `Lexicon.readsAt_of_tokenize`: a text reads its tokens at their places.
- Theorem `Schematic.readFrom_of_ofText`: and the names and literals of its schematic.
- Theorem `locatedIn_of_evaluate`: and what a fault of an evaluation is about.
-/

namespace BitwiseCircuit

open Text (ReadsAt)

variable {text : String} {place : Position}

/-! ## What a text reads at the places of a fault -/

/-- The text reads the fragment at the place of the fault; a character that fits no kind stands
at the place, and the characters read before it stand just before. -/
def TokenFault.LocatedIn (text : String) : TokenFault → Prop
  | ambiguous place spelling _ => ReadsAt text place spelling.toList
  | noMatch place found spelling => ReadsAt text place [found] ∧ ∃ start,
      ReadsAt text start (spelling.toList ++ [found]) ∧
        place = ⟨start.line, start.column + spelling.length⟩
  | unterminated place spelling _ => ReadsAt text place spelling.toList

/-- The text reads the token that was found at its place; where the tokens end too early, the
place is just past the last one, or the start of the text if there is none.  Columns can be
counted in every text with fewer characters than there are columns. -/
def GrammarFault.LocatedIn (text : String) : GrammarFault → Prop
  | unexpectedToken _ found => ReadsAt text found.position found.spelling.toList
  | unexpectedEnd _ place => ∃ tokens, tokenize text = .ok tokens ∧
      (tokens = [] → place = ⟨1, 1⟩) ∧
      ∀ last, tokens.getLast? = some last →
        ReadsAt text last.position last.spelling.toList ∧ place = last.finish ∧
          (text.length + 1 < Position.columnCount →
            place = ⟨last.position.line, last.position.column + last.spelling.length⟩)

/-- The text reads the wire, or the literal, at each place that the fault names; the names along
a cycle stand in the text as well. -/
def WireFault.LocatedIn (text : String) : WireFault → Prop
  | undefined name place? => ∀ place ∈ place?, ReadsAt text place name.toList
  | reassigned name first second =>
      ReadsAt text first name.toList ∧ ReadsAt text second name.toList
  | cyclic name cycle place => ReadsAt text place name.toList ∧
      ∀ other ∈ cycle, ∃ place, ReadsAt text place other.toList
  | literalOutOfRange spelling place => ReadsAt text place spelling.toList

/-- The text reads what the fault names at each of its places, whichever stage finds the fault. -/
def Fault.LocatedIn (text : String) : Fault → Prop
  | token fault => fault.LocatedIn text
  | grammar fault => fault.LocatedIn text
  | wire fault => fault.LocatedIn text

/-! ## Tokens -/

namespace Lexicon

variable {lexicon : Lexicon} {tokens : List Token}

/-- The verdict on a run that stands in the text names places in the text. -/
theorem Verdict.locatedIn {run : Text.Run} {fault : TokenFault}
    (h : lexicon.Verdict run (.error fault)) (hrun : run ∈ Text.runs text) :
    fault.LocatedIn text := by
  have hreads := Text.readsAt_of_mem_runs hrun
  have hspelling : run.spelling.toList = run.letters := String.toList_ofList
  cases h with
  | @noMatch before after c hsplit =>
      rw [hsplit, List.append_cons] at hreads
      have hbefore : ∀ d ∈ before, d ≠ '\n' := fun d hd =>
        Text.ne_newline_of_not_isBlank run.not_isBlank d (hsplit ▸ List.mem_append_left _ hd)
      rw [Position.after_of_ne_newline hbefore]
      refine ⟨hreads.of_append.skip, run.start, ?_, ?_⟩
      · rw [String.toList_ofList]
        exact hreads.of_append
      · rw [String.length_ofList]
  | ambiguous => rwa [TokenFault.LocatedIn, hspelling]
  | unterminated => rwa [TokenFault.LocatedIn, hspelling]

/-- A text that is no list of tokens reads the fragment, or the character, at fault. -/
theorem locatedIn_of_tokenize {fault : TokenFault} (h : lexicon.tokenize text = .error fault) :
    fault.LocatedIn text := by
  rw [tokenize_eq_mapM_judge, mapM_eq_error_iff] at h
  rcases h with ⟨before, run, after, hsplit, -, hjudge⟩
  refine (verdict_iff.mpr hjudge).locatedIn ?_
  rw [hsplit]
  exact List.mem_append_right before List.mem_cons_self

/-- A text reads its tokens at their places. -/
theorem readsAt_of_tokenize (h : lexicon.tokenize text = .ok tokens) :
    ∀ token ∈ tokens, ReadsAt text token.position token.spelling.toList := by
  intro token htoken
  rw [tokenize_eq_mapM_judge, mapM_eq_ok_iff] at h
  rcases exists_of_forall₂ h htoken with ⟨run, hrun, hjudge⟩
  have hreads := Text.readsAt_of_mem_runs hrun
  have hspelling : run.spelling.toList = run.letters := String.toList_ofList
  cases verdict_iff.mpr hjudge with
  | token hlive hspans => rwa [hspelling]

end Lexicon

/-! ## Schematics -/

/-- A text of tokens that spell no schematic reads the token at fault, or ends too early. -/
theorem GrammarFault.locatedIn_of_ofTokens {tokens : List Token} {fault : GrammarFault}
    (htokens : tokenize text = .ok tokens) (h : Schematic.ofTokens tokens = .error fault) :
    fault.LocatedIn text := by
  have hreads := Lexicon.readsAt_of_tokenize htokens
  rcases Schematic.ofTokens_eq_error_cases h with
    ⟨before, token, after, reading, rfl, -, hstep⟩ | ⟨reading, -, rfl⟩
  · have htoken := spellsOperator_of_tokenize htokens token (by simp)
    rcases StatementPrefix.of_read_eq_error htoken (Reading.read_eq_error_of_step hstep) with
      ⟨-, rfl⟩
    exact hreads token (by simp)
  · refine ⟨tokens, htokens, ?_, fun last hlast => ?_⟩
    · rintro rfl
      rfl
    have hlastReads := hreads last (List.mem_of_getLast? hlast)
    refine ⟨hlastReads, ?_, fun hlength => ?_⟩
    · rw [Token.endOf, hlast, Option.map_some, Option.getD_some]
    · rcases hlastReads.exists_line with ⟨line, -, hcolumn, hfits, hline⟩
      rw [String.length_toList] at hfits
      exact Schematic.endOf_eq hlast (by omega)

/-- The text reads the names and the literals of the schematic at their places. -/
structure Schematic.ReadFrom (schematic : Schematic) (text : String) : Prop where
  mention : ∀ statement ∈ schematic.statements, ∀ mention ∈ statement.mentions,
    ReadsAt text mention.position mention.name.toList
  numeral : ∀ statement ∈ schematic.statements, ∀ numeral ∈ statement.expression.numerals,
    ReadsAt text numeral.position numeral.spelling.toList

/-- The literals of an expression are its number tokens. -/
theorem Expression.SpelledBy.numerals_eq {expression : Expression} {tokens : List Token}
    (h : expression.SpelledBy tokens) :
    expression.numerals = (tokens.filter (·.kind = .number)).map .ofToken := by
  cases h <;> simp_all [Expression.numerals]

/-- The literals of a schematic are the number tokens that it was read from, in their order. -/
theorem Schematic.SpelledBy.numerals_eq {schematic : Schematic} {tokens : List Token}
    (h : schematic.SpelledBy tokens) :
    schematic.statements.flatMap (·.expression.numerals) =
      (tokens.filter (·.kind = .number)).map .ofToken := by
  rcases schematic with ⟨statements⟩
  rcases h with ⟨parts, hparts, rfl⟩
  dsimp only at hparts ⊢
  induction hparts with
  | nil => rfl
  | cons hstatement _ ih =>
      cases hstatement with
      | intro hexpression harrow hresult =>
          simp [hexpression.numerals_eq, harrow, hresult, ih]

/-- A literal is in a schematic if its token is among those that it was read from. -/
theorem Schematic.SpelledBy.exists_numeral_iff {schematic : Schematic} {tokens : List Token}
    {numeral : Numeral} (h : schematic.SpelledBy tokens) :
    (∃ statement ∈ schematic.statements, numeral ∈ statement.expression.numerals) ↔
      ∃ token ∈ tokens, token.kind = .number ∧ .ofToken token = numeral := by
  have hmem : numeral ∈ schematic.statements.flatMap (·.expression.numerals) ↔
      numeral ∈ (tokens.filter (·.kind = .number)).map .ofToken := by rw [h.numerals_eq]
  simpa [and_assoc] using hmem

/-- A text reads the schematic that it spells. -/
theorem Schematic.readFrom_of_ofText {schematic : Schematic} (h : ofText text = .ok schematic) :
    schematic.ReadFrom text := by
  rcases exists_of_ofText h with ⟨tokens, htokens, hschematic⟩
  have hreads := Lexicon.readsAt_of_tokenize htokens
  constructor
  · intro statement hstatement mention hmention
    rcases (mem_mentions_iff hschematic).mp ⟨statement, hstatement, hmention⟩ with
      ⟨token, htoken, -, rfl⟩
    exact hreads token htoken
  · intro statement hstatement numeral hnumeral
    rcases (spelledBy_of_ofTokens hschematic).2.exists_numeral_iff.mp
      ⟨statement, hstatement, hnumeral⟩ with ⟨token, htoken, -, rfl⟩
    exact hreads token htoken

/-! ## Wires -/

namespace Schematic.ReadFrom

variable {schematic : Schematic} {net : Netlist} {fault : WireFault}

/-- A text that spells a schematic without a netlist reads the wire, or the literal, at fault. -/
theorem locatedIn_of_ofSchematic (h : schematic.ReadFrom text)
    (hfault : Netlist.ofSchematic schematic = .error fault) : fault.LocatedIn text := by
  rcases Netlist.exists_of_ofSchematic_eq_error hfault with
    ⟨before, statement, after, _, hsplit, -, -, hadds⟩
  have hstatement : statement ∈ schematic.statements := by simp [hsplit]
  cases hadds with
  | @reassigned earlier hmem hname =>
      have hearlier : earlier ∈ schematic.statements := by simp [hsplit, hmem]
      refine ⟨?_, h.mention statement hstatement statement.result List.mem_cons_self⟩
      rw [← hname]
      exact h.mention earlier hearlier earlier.result List.mem_cons_self
  | outOfRange _ hgate =>
      rcases Expression.toGate_eq_error_iff.mp hgate with ⟨numeral, hnumeral, hword⟩
      obtain rfl := Numeral.eq_of_toWord_eq_error hword
      exact h.numeral statement hstatement numeral hnumeral

/-- The text reads a wire where the wire is first mentioned. -/
theorem readsAt_of_wire? (h : schematic.ReadFrom text)
    (hbuilt : Netlist.ofSchematic schematic = .ok net) {x : WireId} {wire : Wire}
    (hwire : net.wire? x = some wire) : ReadsAt text wire.firstSeen wire.name.toList := by
  rcases Netlist.mention_mem_of_ofSchematic hbuilt hwire with ⟨statement, hstatement, hmention⟩
  exact h.mention statement hstatement wire.mention hmention

/-- The text reads the name of every wire somewhere. -/
theorem readsAt_of_isNamed (h : schematic.ReadFrom text)
    (hbuilt : Netlist.ofSchematic schematic = .ok net) {x : WireId} {name : String}
    (hnamed : net.IsNamed x name) : ∃ place, ReadsAt text place name.toList := by
  rcases hnamed with ⟨wire, hwire, rfl⟩
  exact ⟨wire.firstSeen, h.readsAt_of_wire? hbuilt hwire⟩

/-- The text reads a wire where the wire is assigned. -/
theorem readsAt_of_driver? (h : schematic.ReadFrom text)
    (hbuilt : Netlist.ofSchematic schematic = .ok net) {x : WireId} {name : String}
    {driver : Driver} (hnamed : net.IsNamed x name) (hdriver : net.driver? x = some driver) :
    ReadsAt text driver.position name.toList := by
  have hrealizes := Netlist.realizes_ofSchematic hbuilt
  rcases hrealizes.driven x driver hdriver with ⟨statement, hstatement, himplements⟩
  have hresult := (hrealizes.wellWired.find?_iff _ x).mp himplements.result
  have hname : name = statement.result.name := hnamed.nameOf_eq.symm.trans hresult.nameOf_eq
  rw [himplements.position, hname]
  exact h.mention statement hstatement statement.result List.mem_cons_self

/-- A name that does not resolve fails at a wire that the text reads at the place of the fault. -/
theorem locatedIn_of_resolve (h : schematic.ReadFrom text)
    (hbuilt : Netlist.ofSchematic schematic = .ok net) {name : String}
    (hfault : ((Netlist.resolve name).on net).1 = .error fault) : fault.LocatedIn text := by
  have hcoherent := (Netlist.Reachable.built hbuilt).coherent
  rcases Netlist.resolve_eq_error_iff.mp hfault with ⟨-, rfl⟩ | ⟨x, hfind, hsearch⟩
  · exact nofun
  · have hexplains :=
      (hcoherent.search_outcome (hcoherent.lt_size_of_find? hfind)).2.2 fault hsearch
    cases fault with
    | undefined other place? =>
        rcases hexplains with ⟨y, wire, -, hwire, -, rfl, rfl⟩
        intro place hplace
        obtain rfl := Option.mem_some_iff.mp hplace
        exact h.readsAt_of_wire? hbuilt hwire
    | cyclic other cycle place =>
        have hcycle := hcoherent.reportsCycle hsearch
        rcases hcycle.assigned with ⟨y, driver, hnamed, hdriver, rfl⟩
        refine ⟨h.readsAt_of_driver? hbuilt hnamed hdriver, fun another hmem => ?_⟩
        rcases hcycle.needed another hmem with ⟨z, hnamed, -⟩
        exact h.readsAt_of_isNamed hbuilt hnamed
    | reassigned other first second => exact hexplains.elim
    | literalOutOfRange spelling place => exact hexplains.elim

/-- Where a report fails, one of its names does. -/
theorem locatedIn_of_report (h : schematic.ReadFrom text)
    (hbuilt : Netlist.ofSchematic schematic = .ok net) {names : List String}
    {order : Netlist.Order} (hfault : ((Netlist.report names order).on net).1 = .error fault) :
    fault.LocatedIn text := by
  rw [(Netlist.Reachable.built hbuilt).coherent.report_eq] at hfault
  rcases Netlist.exists_of_mapM_entry_eq_error hfault with ⟨name, -, hresolve⟩
  exact h.locatedIn_of_resolve hbuilt hresolve

end Schematic.ReadFrom

/-! ## Whole texts -/

private theorem Schematic.locatedIn_of_ofText {fault : Fault} (h : ofText text = .error fault) :
    fault.LocatedIn text := by
  rcases of_ofText_eq_error h with ⟨cause, rfl, hcause⟩ | ⟨cause, tokens, rfl, htokens, hcause⟩
  · exact Lexicon.locatedIn_of_tokenize hcause
  · exact GrammarFault.locatedIn_of_ofTokens htokens hcause

/-- A text on which an evaluation fails reads what the fault is about at its places. -/
theorem locatedIn_of_evaluate {names : List String} {order : Netlist.Order} {fault : Fault}
    (h : evaluate text names order = .error fault) : fault.LocatedIn text := by
  rcases of_evaluate_eq_error h with
    hfault | ⟨cause, schematic, rfl, hschematic, hfault | ⟨net, hnet, hfault⟩⟩
  · exact Schematic.locatedIn_of_ofText hfault
  · exact (Schematic.readFrom_of_ofText hschematic).locatedIn_of_ofSchematic hfault
  · exact (Schematic.readFrom_of_ofText hschematic).locatedIn_of_report hnet hfault

end BitwiseCircuit
