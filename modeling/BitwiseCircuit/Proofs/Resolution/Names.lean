import BitwiseCircuit.Proofs.Netlist.Names
import BitwiseCircuit.Proofs.Resolution.Pointwise
import BitwiseCircuit.Proofs.Search.Relabelling

/-!
# Names are labels

What a wire resolves to depends on how the wires are connected.  Their names tell them apart
and appear in reports and faults, so replacing all names, different ones by different ones,
replaces the names in what is returned, and does nothing else.

Main results:

- Theorem `Netlist.Renames.relabels`: wires keep their numbers, gates and places under other
  names.
- Theorem `Netlist.Renames.resolve_eq`: a name resolves to what the other name for it resolves
  to.
- Theorem `Netlist.ofSchematic_rename`: so do all names of a schematic, and its wires are
  reported in the same order, if they are reported as they are mentioned.
-/

namespace BitwiseCircuit

variable {rename : String → String}

private theorem WireFault.Corresponds.rename_eq {fault fault' : WireFault}
    (h : fault.Corresponds rename Eq Eq fault') : fault.rename rename = fault' := by
  cases h with
  | undefined hplace => rw [WireFault.rename, hplace]
  | cyclic hplace => rw [WireFault.rename, hplace]

/-- The entry of a report under the other name of its wire. -/
def renameEntry (rename : String → String) (entry : String × Word) : String × Word :=
  (rename entry.1, entry.2)

namespace Netlist

variable {net net' : Netlist}

namespace Renames

/-- Wires keep their numbers, their gates and their places under other names. -/
theorem relabels (h : Renames rename net net') : net.Relabels rename Eq Eq id net' where
  injective _ _ _ _ heq := heq
  wire x wire hwire := ⟨wire.rename rename, by simp [h.wire?_eq, hwire], rfl, rfl⟩
  driver x driver hdriver :=
    ⟨driver, by rw [id, h.driver?_eq, hdriver], (Gate.map_eq_self fun _ _ => rfl).symm, rfl⟩

/-- The other name of a wire resolves to the same word, or to the same fault under the other
names. -/
theorem resolve_eq (h : Renames rename net net') (hnet : net.Coherent) (hnet' : net'.Coherent)
    (name : String) :
    ((resolve (rename name)).on net').1 =
      mapBoth (WireFault.rename rename) id ((resolve name).on net).1 := by
  have hfind' := h.find?_eq name
  cases hfind : net.find? name with
  | none =>
      rw [hfind] at hfind'
      rw [on_resolve_of_find?_eq_none hfind, on_resolve_of_find?_eq_none hfind']
      rfl
  | some x =>
      rw [hfind] at hfind'
      rw [on_resolve_of_find?_eq_some hfind, on_resolve_of_find?_eq_some hfind']
      have hread : ∀ fault fault' : WireFault, fault.Corresponds rename Eq Eq fault' →
          fault.rename rename = id fault' :=
        fun _ _ hcorresponds => hcorresponds.rename_eq
      have hopen : ∀ y wire, net.wire? y = some wire → wire.driver = none →
          (net.search x).1 = .error wire.undefined → net'.driver? (id y) = none := by
        intro y wire hwire hdriver _
        rw [id, h.driver?_eq, driver?_of_wire? hwire, hdriver]
      have hlt : x < net.size := hnet.lt_size_of_find? hfind
      have hsearch := h.relabels.search_mapError_eq hread hnet hnet' hlt hopen
      rw [mapError_eq_mapBoth] at hsearch
      rw [hsearch, id]
      cases (net'.search x).1 <;> rfl

/-- All wires resolve in the same order to the same words under the other names. -/
theorem resolveAll_byMention_eq (h : Renames rename net net') (hnet : net.Coherent)
    (hnet' : net'.Coherent) :
    ((resolveAll .byMention).on net').1 =
      mapBoth (WireFault.rename rename) (List.map (renameEntry rename))
        ((resolveAll .byMention).on net).1 := by
  have hentry : ∀ name, net'.entry (rename name) =
      mapBoth (WireFault.rename rename) (renameEntry rename) (net.entry name) := by
    intro name
    rw [entry, entry, h.resolve_eq hnet hnet']
    cases ((resolve name).on net).1 <;> rfl
  rw [hnet.resolveAll_eq, hnet'.resolveAll_eq, h.names_listing_byMention, List.mapM_map,
    mapBoth_mapM]
  simp only [Function.comp_def, hentry]

end Renames

/-- Names are only labels.  If all names of a schematic are replaced, different ones by different
ones, then it is refused with the same fault under the other names; or else every name, whether
the schematic mentions it or not, resolves to the same as before under the other names, and so
do all wires as they are mentioned. -/
theorem ofSchematic_rename (hinjective : Function.Injective rename) (schematic : Schematic) :
    (∀ fault', ofSchematic (schematic.rename rename) = .error fault' ↔
        ∃ fault, ofSchematic schematic = .error fault ∧ fault.rename rename = fault') ∧
      ∀ net net', ofSchematic schematic = .ok net →
        ofSchematic (schematic.rename rename) = .ok net' →
          (∀ name, ((resolve (rename name)).on net').1 =
            mapBoth (WireFault.rename rename) id ((resolve name).on net).1) ∧
          ((resolveAll .byMention).on net').1 =
            mapBoth (WireFault.rename rename) (List.map (renameEntry rename))
              ((resolveAll .byMention).on net).1 := by
  have hmatches := Renames.ofSchematic hinjective schematic
  constructor
  · intro fault'
    generalize ofSchematic schematic = result at hmatches ⊢
    generalize ofSchematic (schematic.rename rename) = result' at hmatches ⊢
    cases hmatches with
    | error fault => simp
    | ok h => simp
  · intro net net' hbuilt hbuilt'
    rw [hbuilt, hbuilt'] at hmatches
    cases hmatches with
    | ok h =>
        have hnet : net.Coherent := (Reachable.built hbuilt).coherent
        have hnet' : net'.Coherent := (Reachable.built hbuilt').coherent
        exact ⟨h.resolve_eq hnet hnet', h.resolveAll_byMention_eq hnet hnet'⟩

/-- Exchanges the names `w` and `y`. -/
def exchange (name : String) : String :=
  if name = "w" then "y" else if name = "y" then "w" else name

/-- No two names are exchanged for the same. -/
theorem exchange_injective : Function.Injective exchange := by
  have hinvolutive : Function.Involutive exchange := by
    intro name
    unfold exchange
    split_ifs <;> simp_all
  exact hinvolutive.injective

/-- With the names `w` and `y` exchanged, the cycle of `tangle` is the one of `x` and `y`, found
from `z` in the same place. -/
theorem tangle_rename :
    Function.Injective exchange ∧
      ∃ net net', ofSchematic tangle = .ok net ∧
        ofSchematic (tangle.rename exchange) = .ok net' ∧
        ((resolve "z").on net).1 = .error (.cyclic "x" ["x", "w", "x"] ⟨1, 6⟩) ∧
        ((resolve "z").on net').1 = .error (.cyclic "x" ["x", "y", "x"] ⟨1, 6⟩) ∧
        ((resolve "w").on net').1 = .ok 5 := by
  have hbuilt : ofSchematic tangle = .ok ((ofSchematic tangle).toOption.getD empty) := rfl
  have hbuilt' : ofSchematic (tangle.rename exchange) =
      .ok ((ofSchematic (tangle.rename exchange)).toOption.getD empty) := rfl
  have hresolve := ((ofSchematic_rename exchange_injective tangle).2 _ _ hbuilt hbuilt').1
  have hcyclic : ((resolve "z").on ((ofSchematic tangle).toOption.getD empty)).1 =
      .error (.cyclic "x" ["x", "w", "x"] ⟨1, 6⟩) := by decide +kernel
  have hword : ((resolve "y").on ((ofSchematic tangle).toOption.getD empty)).1 = .ok 5 := by
    decide +kernel
  refine ⟨exchange_injective, _, _, hbuilt, hbuilt', hcyclic, ?_, ?_⟩
  · refine (hresolve "z").trans ?_
    rw [hcyclic]
    rfl
  · refine (hresolve "y").trans ?_
    rw [hword]
    rfl

end Netlist

end BitwiseCircuit
