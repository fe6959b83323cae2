import BitwiseCircuit.Evaluation
import BitwiseCircuit.Proofs.Except

/-!
# The stages of an evaluation

An evaluation that succeeds has gone through all stages, and one that fails is ended by the
first stage that does.

Main results:

- Theorem `Schematic.exists_ofText_eq_ok_iff`: a text spells a schematic if it has tokens and
  these do; Theorem `Schematic.of_ofText_eq_error`: otherwise one of these two stages fails.
- Theorems `Circuit.exists_of_ofText` and `exists_of_evaluate`: what succeeds has succeeded stage
  by stage.
- Theorem `evaluate_eq_bind`: an evaluation reads the schematic, builds its netlist and makes the
  report; Theorems `evaluate_of_ofText` and `evaluate_of_ofSchematic` go on after a stage, and
  Theorem `of_evaluate_eq_error` finds the stage that fails.
- Theorem `evaluate_eq_of_ne_nil`: the order of all wires does not matter where wires are named.
-/

namespace BitwiseCircuit

variable {text : String} {tokens : List Token} {schematic : Schematic} {net : Netlist}
  {names : List String} {order : Netlist.Order} {fault : Fault}

/-! ## Schematics -/

/-- The schematic of a text is that of its tokens. -/
theorem Schematic.ofText_of_tokenize (h : tokenize text = .ok tokens) :
    ofText text = (ofTokens tokens).mapError .grammar := by
  rw [ofText, h]
  rfl

/-- A text whose tokens spell a schematic has that schematic. -/
theorem Schematic.ofText_eq_ok (htokens : tokenize text = .ok tokens)
    (hschematic : ofTokens tokens = .ok schematic) : ofText text = .ok schematic := by
  rw [ofText_of_tokenize htokens, hschematic]
  rfl

/-- The schematic of a text is spelled by the tokens of the text. -/
theorem Schematic.exists_of_ofText (h : ofText text = .ok schematic) :
    ∃ tokens, tokenize text = .ok tokens ∧ ofTokens tokens = .ok schematic := by
  rcases exists_of_bind_eq_ok h with ⟨tokens, htokens, hschematic⟩
  exact ⟨tokens, eq_ok_of_mapError_eq_ok htokens, eq_ok_of_mapError_eq_ok hschematic⟩

/-- A text spells a schematic if it has tokens and these do. -/
theorem Schematic.exists_ofText_eq_ok_iff :
    (∃ schematic, ofText text = .ok schematic) ↔
      ∃ tokens schematic, tokenize text = .ok tokens ∧ ofTokens tokens = .ok schematic := by
  constructor
  · rintro ⟨schematic, h⟩
    rcases exists_of_ofText h with ⟨tokens, htokens, hschematic⟩
    exact ⟨tokens, schematic, htokens, hschematic⟩
  · rintro ⟨tokens, schematic, htokens, hschematic⟩
    exact ⟨schematic, ofText_eq_ok htokens hschematic⟩

/-- A text that spells no schematic has no tokens, or they spell none. -/
theorem Schematic.of_ofText_eq_error (h : ofText text = .error fault) :
    (∃ cause, fault = .token cause ∧ tokenize text = .error cause) ∨
      ∃ cause tokens, fault = .grammar cause ∧ tokenize text = .ok tokens ∧
        ofTokens tokens = .error cause := by
  rcases of_bind_eq_error h with htokens | ⟨tokens, htokens, hschematic⟩
  · rcases exists_of_mapError_eq_error htokens with ⟨cause, hcause, rfl⟩
    exact .inl ⟨cause, rfl, hcause⟩
  · rcases exists_of_mapError_eq_error hschematic with ⟨cause, hcause, rfl⟩
    exact .inr ⟨cause, tokens, rfl, eq_ok_of_mapError_eq_ok htokens, hcause⟩

/-! ## Circuits and reports -/

/-- A circuit of a text comes from the tokens of the text, by way of their schematic. -/
theorem Circuit.exists_of_ofText {circuit : Circuit} (h : ofText text = .ok circuit) :
    ∃ tokens, tokenize text = .ok tokens ∧ Schematic.ofTokens tokens = .ok circuit.schematic ∧
      Netlist.ofSchematic circuit.schematic = .ok circuit.netlist := by
  rcases exists_of_bind_eq_ok h with ⟨schematic, hspelled, hbuilt⟩
  rcases Schematic.exists_of_ofText hspelled with ⟨tokens, htokens, hschematic⟩
  rcases exists_of_bind_eq_ok hbuilt with ⟨netlist, hnetlist, hcircuit⟩
  cases hcircuit
  exact ⟨tokens, htokens, hschematic, eq_ok_of_mapError_eq_ok hnetlist⟩

/-- A report of a text is a report of its circuit. -/
theorem exists_of_evaluate {report : Report} (h : evaluate text names order = .ok report) :
    ∃ circuit, Circuit.ofText text = .ok circuit ∧
      ((Netlist.report names order).on circuit.netlist).1 = .ok report := by
  rcases exists_of_bind_eq_ok h with ⟨circuit, hcircuit, hreport⟩
  exact ⟨circuit, hcircuit, eq_ok_of_mapError_eq_ok hreport⟩

/-- An evaluation reads the schematic of the text, builds its netlist and reports on that. -/
theorem evaluate_eq_bind (text : String) (names : List String) (order : Netlist.Order) :
    evaluate text names order = Schematic.ofText text >>= fun schematic =>
      (Netlist.ofSchematic schematic >>= fun net =>
        ((Netlist.report names order).on net).1).mapError Fault.wire := by
  rw [evaluate, Circuit.ofText, bind_assoc]
  refine bind_congr fun schematic => ?_
  cases Netlist.ofSchematic schematic <;> rfl

/-- Past the schematic, an evaluation builds its netlist. -/
theorem evaluate_of_ofText (h : Schematic.ofText text = .ok schematic) (names : List String)
    (order : Netlist.Order) :
    evaluate text names order = (Netlist.ofSchematic schematic >>= fun net =>
      ((Netlist.report names order).on net).1).mapError .wire := by
  rw [evaluate_eq_bind, h]
  rfl

/-- Past the netlist, an evaluation makes the report. -/
theorem evaluate_of_ofSchematic (h : Schematic.ofText text = .ok schematic)
    (hnet : Netlist.ofSchematic schematic = .ok net) (names : List String)
    (order : Netlist.Order) :
    evaluate text names order = ((Netlist.report names order).on net).1.mapError .wire := by
  rw [evaluate_of_ofText h, hnet]
  rfl

/-- An evaluation that fails is ended by its schematic, its netlist or its report. -/
theorem of_evaluate_eq_error (h : evaluate text names order = .error fault) :
    Schematic.ofText text = .error fault ∨
      ∃ cause schematic, fault = .wire cause ∧ Schematic.ofText text = .ok schematic ∧
        (Netlist.ofSchematic schematic = .error cause ∨
          ∃ net, Netlist.ofSchematic schematic = .ok net ∧
            ((Netlist.report names order).on net).1 = .error cause) := by
  rw [evaluate_eq_bind] at h
  rcases of_bind_eq_error h with hschematic | ⟨schematic, hschematic, hrest⟩
  · exact .inl hschematic
  · rcases exists_of_mapError_eq_error hrest with ⟨cause, hcause, rfl⟩
    exact .inr ⟨cause, schematic, rfl, hschematic, of_bind_eq_error hcause⟩

/-- The order of all wires does not matter where the wires to report are named. -/
theorem evaluate_eq_of_ne_nil (hnames : names ≠ []) (text : String)
    (order order' : Netlist.Order) : evaluate text names order = evaluate text names order' := by
  have hreport : Netlist.report names order = Netlist.report names order' := by
    simp [Netlist.report, hnames]
  rw [evaluate_eq_bind, evaluate_eq_bind, hreport]

end BitwiseCircuit
