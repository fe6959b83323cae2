import BitwiseCircuit.Proofs.Evaluation.Stages
import BitwiseCircuit.Proofs.Netlist.Places
import BitwiseCircuit.Proofs.Resolution.Pointwise
import BitwiseCircuit.Proofs.Search.Relabelling
import BitwiseCircuit.Proofs.Token.Scanning

/-!
# The layout of a text

Comments, empty lines and blanks between the runs of a text decide where the runs stand, and
nothing else.  As every stage of an evaluation only copies places, the layout of a text shows
in the places that a fault names, and in nothing else that an evaluation returns.

Main results:

- Definition `Fault.unplaced` forgets the places in a fault.
- Theorem `Lexicon.tokenize_congr`: the same runs in other places give the same tokens in other
  places.
- Theorem `Netlist.Coherent.report_unplaced`: a netlist without its places reports the same.
- Theorem `evaluate_layout`: texts with the same runs evaluate to the same, up to places.
-/

namespace BitwiseCircuit

/-- The fault without the place where it was found. -/
def TokenFault.unplaced : TokenFault → TokenFault
  | ambiguous _ spelling kinds => ambiguous .first spelling kinds
  | noMatch _ found spelling => noMatch .first found spelling
  | unterminated _ spelling kind => unterminated .first spelling kind

/-- The fault without the places in it; its stage, its sort and all other contents stay. -/
def Fault.unplaced : Fault → Fault
  | token fault => token fault.unplaced
  | grammar fault => grammar fault.unplaced
  | wire fault => wire fault.unplaced

/-! ## Tokens -/

namespace Lexicon

variable {text text' : String}

/-- What a run is does not depend on where it stands. -/
theorem judge_congr (lexicon : Lexicon) {run run' : Text.Run} (h : run.letters = run'.letters) :
    mapBoth TokenFault.unplaced Token.unplaced (lexicon.judge run) =
      mapBoth TokenFault.unplaced Token.unplaced (lexicon.judge run') := by
  have hspelling : run.spelling = run'.spelling := by rw [Text.Run.spelling, h, Text.Run.spelling]
  simp only [judge, h, hspelling]
  cases lexicon.misfit? [] run'.letters with
  | some misfit => rfl
  | none =>
      rcases lexicon.live run'.letters with _ | ⟨rule, _ | ⟨rival, rules⟩⟩
      · rfl
      · dsimp only
        split <;> rfl
      · rfl

/-- The same runs give the same tokens, or the same fault, wherever they stand. -/
theorem tokenize_congr (lexicon : Lexicon)
    (h : (Text.runs text).map (·.letters) = (Text.runs text').map (·.letters)) :
    mapBoth TokenFault.unplaced (List.map Token.unplaced) (lexicon.tokenize text) =
      mapBoth TokenFault.unplaced (List.map Token.unplaced) (lexicon.tokenize text') := by
  rw [tokenize_eq_mapM_judge, tokenize_eq_mapM_judge, mapBoth_mapM, mapBoth_mapM]
  exact mapM_eq_of_map_eq h fun run run' hletters => lexicon.judge_congr hletters

end Lexicon

/-- The same runs spell the same schematic, up to places. -/
theorem Schematic.ofText_congr {text text' : String}
    (h : (Text.runs text).map (·.letters) = (Text.runs text').map (·.letters)) :
    mapBoth Fault.unplaced unplaced (ofText text) =
      mapBoth Fault.unplaced unplaced (ofText text') := by
  rw [ofText, ofText]
  refine mapBoth_bind_congr (g := List.map Token.unplaced) ?_ fun tokens tokens' _ _ htokens => ?_
  · exact mapBoth_mapError_congr (Lexicon.tokenize_congr _ h) fun _ _ => congrArg Fault.token
  · exact mapBoth_mapError_congr (ofTokens_congr htokens) fun _ _ => congrArg Fault.grammar

/-! ## Wires -/

private theorem WireFault.Corresponds.unplaced_eq {assigned mentioned : Position → Position → Prop}
    {fault fault' : WireFault} (h : fault.Corresponds id assigned mentioned fault') :
    fault.unplaced = fault'.unplaced := by
  cases h with
  | undefined hplace => rfl
  | cyclic hplace => simp [WireFault.unplaced]

namespace Netlist

variable {net net' : Netlist}

/-- The wires keep their numbers, names and gates when places are forgotten. -/
theorem relabels_unplaced (net : Netlist) :
    net.Relabels id (fun _ _ => True) (fun _ _ => True) id net.unplaced where
  injective _ _ _ _ h := h
  wire x wire hwire := ⟨wire.unplaced, by simp [hwire], rfl, trivial⟩
  driver x driver hdriver :=
    ⟨driver.unplaced, by simp [hdriver], (Gate.map_eq_self fun _ _ => rfl).symm, trivial⟩

/-- A name resolves to the same, up to places, when places are forgotten. -/
theorem Coherent.resolve_unplaced (h : net.Coherent) (h' : net.unplaced.Coherent) (name : String) :
    ((resolve name).on net).1.mapError WireFault.unplaced =
      ((resolve name).on net.unplaced).1.mapError WireFault.unplaced := by
  have hfind' := net.find?_unplaced name
  cases hfind : net.find? name with
  | none =>
      rw [hfind] at hfind'
      rw [on_resolve_of_find?_eq_none hfind, on_resolve_of_find?_eq_none hfind']
  | some x =>
      rw [hfind] at hfind'
      rw [on_resolve_of_find?_eq_some hfind, on_resolve_of_find?_eq_some hfind']
      refine net.relabels_unplaced.search_mapError_eq (fun _ _ hcorresponds =>
        hcorresponds.unplaced_eq) h h' (h.lt_size_of_find? hfind) ?_
      intro y wire hwire hdriver _
      simp [driver?_of_wire? hwire, hdriver]

/-- A report is the same, up to places, when places are forgotten. -/
theorem Coherent.report_unplaced (h : net.Coherent) (h' : net.unplaced.Coherent)
    (names : List String) (order : Order) :
    ((report names order).on net).1.mapError WireFault.unplaced =
      ((report names order).on net.unplaced).1.mapError WireFault.unplaced := by
  have hrequested : net.unplaced.requested names order = net.requested names order := by
    rw [requested, requested, names_listing_unplaced]
  have hentry : ∀ name, (net.unplaced.entry name).mapError WireFault.unplaced =
      (net.entry name).mapError WireFault.unplaced := by
    intro name
    rw [entry, entry, mapError_map, mapError_map, h.resolve_unplaced h']
  rw [h.report_eq, h'.report_eq, mapError_mapM, mapError_mapM, hrequested]
  simp only [hentry]

/-- Schematics that differ in places alone report the same, up to places. -/
theorem report_ofSchematic_congr {schematic schematic' : Schematic}
    (h : schematic.unplaced = schematic'.unplaced) (names : List String) (order : Order) :
    mapBoth WireFault.unplaced id
        (ofSchematic schematic >>= fun net => ((report names order).on net).1) =
      mapBoth WireFault.unplaced id
        (ofSchematic schematic' >>= fun net => ((report names order).on net).1) := by
  have hunplaced := ofSchematic_unplaced schematic
  have hunplaced' := ofSchematic_unplaced schematic'
  refine mapBoth_bind_congr (g := unplaced) ?_ fun net net' hbuilt hbuilt' hnet => ?_
  · rw [← hunplaced, h, hunplaced']
  · rw [hbuilt, mapBoth_ok] at hunplaced
    have hcoherent : net.unplaced.Coherent := (Reachable.built hunplaced).coherent
    have hreport := (Reachable.built hbuilt).coherent.report_unplaced hcoherent names order
    rw [hnet] at hcoherent hreport
    rw [← mapError_eq_mapBoth, ← mapError_eq_mapBoth, hreport,
      (Reachable.built hbuilt').coherent.report_unplaced hcoherent]

end Netlist

/-! ## Whole texts -/

/-- Layout does not matter: texts with the same runs evaluate to the same words, or to faults
of the same stage and sort with the same contents, places apart. -/
theorem evaluate_layout {text text' : String}
    (h : (Text.runs text).map (·.letters) = (Text.runs text').map (·.letters))
    (names : List String) (order : Netlist.Order) :
    (evaluate text names order).mapError Fault.unplaced =
      (evaluate text' names order).mapError Fault.unplaced := by
  rw [mapError_eq_mapBoth, mapError_eq_mapBoth, evaluate_eq_bind, evaluate_eq_bind]
  refine mapBoth_bind_congr (Schematic.ofText_congr h) fun schematic schematic' _ _ hsame => ?_
  exact mapBoth_mapError_congr (Netlist.report_ofSchematic_congr hsame names order)
    fun _ _ => congrArg Fault.wire

/-- A comment, empty lines and other blanks move the fault of `u`, which nothing drives, and
change nothing else. -/
theorem spread_evaluate_layout :
    (Text.runs "u -> x").map (·.letters) =
        (Text.runs "# y -> u\n\n\tu ->\r\n\n x # u").map (·.letters) ∧
      evaluate "u -> x" ["x"] .byName = .error (.wire (.undefined "u" (some ⟨1, 1⟩))) ∧
      evaluate "# y -> u\n\n\tu ->\r\n\n x # u" ["x"] .byName =
        .error (.wire (.undefined "u" (some ⟨3, 2⟩))) ∧
      (evaluate "u -> x" ["x"] .byName).mapError Fault.unplaced =
        (evaluate "# y -> u\n\n\tu ->\r\n\n x # u" ["x"] .byName).mapError Fault.unplaced := by
  have hruns : (Text.runs "u -> x").map (·.letters) =
      (Text.runs "# y -> u\n\n\tu ->\r\n\n x # u").map (·.letters) := by
    decide +kernel
  refine ⟨hruns, by decide +kernel, by decide +kernel, ?_⟩
  exact evaluate_layout hruns ["x"] .byName

end BitwiseCircuit
