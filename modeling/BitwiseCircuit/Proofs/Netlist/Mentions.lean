import BitwiseCircuit.Proofs.Netlist.Construction
import BitwiseCircuit.Proofs.Schematic.FirstMentions

/-!
# Where wires are first mentioned

Each wire of a netlist keeps the place at which it was added.  At that place a statement
mentions the wire, as its result or as an operand, and no statement mentions it before.

Main results:

- Definition `Wire.mention` is the mention that added a wire, and `Netlist.mentions` lists them.
- Theorem `Netlist.WellWired.mentions_internAll`: looking up mentions adds the first ones of new
  names.
- Theorem `Netlist.mentions_ofSchematic`: the wires of the netlist of a schematic are added by
  its first mentions.
-/

namespace BitwiseCircuit

/-- The mention that added the wire. -/
def Wire.mention (wire : Wire) : Mention :=
  ⟨wire.name, wire.firstSeen⟩

namespace Netlist

variable {net net' : Netlist} {id : WireId} {name : String} {done added : List Mention}
  {schematic : Schematic} {statement : Statement}

/-- The mentions that added the wires, in the order of their numbers. -/
def mentions (net : Netlist) : List Mention :=
  net.wires.toList.map Wire.mention

/-- The mentions are in the order of the wires. -/
theorem getElem?_mentions (net : Netlist) (id : WireId) :
    net.mentions[id]? = (net.wire? id).map Wire.mention := by
  rw [mentions, List.getElem?_map, Array.getElem?_toList, wire?]

/-- A lookup adds its mention after the others if the name is new. -/
theorem mentions_intern (net : Netlist) (mention : Mention) :
    (net.intern mention.name mention.position).2.mentions =
      if net.find? mention.name = none then net.mentions ++ [mention] else net.mentions := by
  cases hfind : net.find? mention.name with
  | some id => simp [intern_of_find?_eq_some mention.position hfind]
  | none => simp [intern, hfind, mentions, Wire.mention]

private theorem mentions_drive (net : Netlist) (id : WireId) (driver : Driver) :
    (net.drive id driver).mentions = net.mentions := by
  refine List.ext_getElem? fun x => ?_
  rw [getElem?_mentions, getElem?_mentions, wire?_drive]
  split
  · cases net.wire? x <;> rfl
  · rfl

@[simp]
theorem mentions_fresh (net : Netlist) : net.fresh.mentions = net.mentions := by
  simp [mentions, fresh, Wire.mention, Function.comp_def]

/-- The mentions do not depend on the words computed so far. -/
theorem SameWiring.mentions_eq (h : net.SameWiring net') : net.mentions = net'.mentions := by
  simpa using congrArg mentions h

/-- A name is found under the number of its mention. -/
theorem WellWired.find?_eq_some_iff (h : net.WellWired) :
    net.find? name = some id ↔ (net.mentions.map (·.name))[id]? = some name := by
  rw [h.find?_iff, IsNamed, List.getElem?_map, getElem?_mentions]
  simp [Wire.mention]

/-- A name is unknown exactly if no wire is mentioned by it. -/
theorem WellWired.find?_eq_none_iff (h : net.WellWired) :
    net.find? name = none ↔ name ∉ net.mentions.map (·.name) := by
  rw [Option.eq_none_iff_forall_ne_some, List.mem_iff_getElem?, not_exists]
  exact forall_congr' fun id => not_congr h.find?_eq_some_iff

/-- Looking up mentions one after the other adds the first ones of the names that are new. -/
theorem WellWired.mentions_internAll (h : net.WellWired)
    (hdone : net.mentions = Mention.firsts done) :
    (net.internAll added).mentions = Mention.firsts (done ++ added) := by
  induction added generalizing net done with
  | nil => rw [internAll_nil, List.append_nil, hdone]
  | cons mention added ih =>
      rw [internAll_cons, List.append_cons]
      refine ih (h.intern mention.name mention.position) ?_
      have hnew : net.find? mention.name = none ↔ mention.name ∉ done.map (·.name) := by
        rw [h.find?_eq_none_iff, hdone, Mention.mem_names_firsts_iff]
      rw [mentions_intern, Mention.firsts_concat, hdone]
      by_cases hmem : mention.name ∈ done.map (·.name)
      · rw [if_pos hmem, if_neg (mt hnew.mp (not_not_intro hmem))]
      · rw [if_neg hmem, if_pos (hnew.mpr hmem)]

/-- Adding a statement adds the first mentions of the names that are new. -/
theorem WellWired.mentions_assign (h : net.WellWired) (hdone : net.mentions = Mention.firsts done)
    (hassign : net.assign statement = .ok net') :
    net'.mentions = Mention.firsts (done ++ statement.mentions) := by
  rcases exists_of_assign hassign with ⟨id, driver, _, rfl, _⟩
  rw [mentions_drive, h.mentions_internAll hdone]

/-- The wires of the netlist of a schematic are added by its first mentions. -/
theorem mentions_ofSchematic (hbuilt : ofSchematic schematic = .ok net) :
    net.mentions = schematic.firstMentions := by
  refine (holds_of_foldlM_eq_ok (P := fun done net => net.Realizes done ∧
    net.mentions = Mention.firsts (done.flatMap Statement.mentions)) ?_ ⟨realizes_empty, rfl⟩
    hbuilt).2
  rintro done statement before after ⟨hrealizes, hmentions⟩ hassign
  refine ⟨hrealizes.assign hassign, ?_⟩
  rw [hrealizes.wellWired.mentions_assign hmentions hassign, List.flatMap_append,
    List.flatMap_singleton]

/-- A schematic mentions each wire of its netlist where the wire is first seen. -/
theorem mention_mem_of_ofSchematic (hbuilt : ofSchematic schematic = .ok net) {wire : Wire}
    (hwire : net.wire? id = some wire) :
    ∃ statement ∈ schematic.statements, wire.mention ∈ statement.mentions := by
  have hmem : wire.mention ∈ net.mentions :=
    List.mem_map_of_mem (Array.mem_toList_iff.mpr (Array.mem_of_getElem? hwire))
  rw [mentions_ofSchematic hbuilt] at hmem
  exact Schematic.mem_mentions.mp (List.mem_of_find?_eq_some (Mention.mem_firsts_iff.mp hmem))

end Netlist

end BitwiseCircuit
