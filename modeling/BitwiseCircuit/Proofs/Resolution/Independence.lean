import BitwiseCircuit.Proofs.Resolution.Consistency
import BitwiseCircuit.Proofs.Search.FirstFault

/-!
# Resolution does not depend on history

Calls leave words and new wires behind, also calls that fail half-way.  None of this shows
in what a name resolves to later: a word that is known is the one that would be computed,
and a wire that was added is below no other one.

Main results:

- Theorem `Netlist.Coherent.find?_serveAll`: calls that never look up a name to add it leave it
  unknown.
- Theorem `Netlist.Coherent.resolve_serveAll_of_find?`: a name that has a wire resolves
  after any calls to what it resolves to before them.
- Theorem `Netlist.resolve_serveAll_eq`: on the netlist of a schematic, so does every name
  that the schematic mentions, and every name that is never added.
-/

namespace BitwiseCircuit

namespace Netlist

variable {net : Netlist} {id : WireId} {name : String} {call : Call} {calls : List Call}

/-! ## Names that stay unknown -/

/-- A call that does not look up a name to add it leaves it unknown. -/
theorem Coherent.find?_serve (h : net.Coherent) (hcall : ∀ position, call ≠ .intern name position)
    (hfind : net.find? name = none) : (net.serve call).find? name = none := by
  rcases h.intern_or_grows call with ⟨other, position, rfl⟩ | hgrows
  · have hne : name ≠ other := by
      rintro rfl
      exact hcall position rfl
    rw [Netlist.serve, find?_intern_eq, if_neg hne, hfind]
  · rw [← hgrows.wiring.find?_eq, hfind]

/-- Calls that never look up a name to add it leave it unknown. -/
theorem Coherent.find?_serveAll (h : net.Coherent)
    (hcalls : ∀ position, .intern name position ∉ calls) (hfind : net.find? name = none) :
    (net.serveAll calls).find? name = none := by
  induction calls generalizing net with
  | nil => exact hfind
  | cons call calls ih =>
      have hcall : ∀ position, call ≠ .intern name position := by
        rintro position rfl
        exact hcalls position List.mem_cons_self
      have hrest : ∀ position, .intern name position ∉ calls := fun position hmem =>
        hcalls position (List.mem_cons_of_mem call hmem)
      rw [serveAll_cons]
      exact ih (h.serve call) hrest (h.find?_serve hcall hfind)

/-! ## The same result after any calls -/

/-- A wire resolves after any calls to what it resolves to before them. -/
theorem Coherent.resolveId_serveAll (h : net.Coherent) (hlt : id < net.size) (calls : List Call) :
    ((resolveId id).on (net.serveAll calls)).1 = ((resolveId id).on net).1 :=
  (h.extends_serveAll calls).embeds.search_eq h (h.serveAll calls) hlt

/-- A name that has a wire resolves after any calls to what it resolves to before them. -/
theorem Coherent.resolve_serveAll_of_find? (h : net.Coherent) (hfind : net.find? name = some id)
    (calls : List Call) :
    ((resolve name).on (net.serveAll calls)).1 = ((resolve name).on net).1 := by
  have hlt : id < net.size := h.lt_size_of_find? hfind
  have hfind' := (h.extends_serveAll calls).finds name id hfind
  rw [on_resolve_of_find?_eq_some hfind, on_resolve_of_find?_eq_some hfind']
  exact h.resolveId_serveAll hlt calls

/-- Whatever calls the netlist of a schematic has served, and whether they failed or not, a
name resolves to the same word, or the same fault, as on the netlist just built.  This
holds for each name that the schematic mentions, and for each name that no call adds. -/
theorem resolve_serveAll_eq {schematic : Schematic} (hbuilt : ofSchematic schematic = .ok net)
    (calls : List Call)
    (hname : (∃ statement ∈ schematic.statements, ∃ mention ∈ statement.mentions,
        mention.name = name) ∨ ∀ position, .intern name position ∉ calls) :
    ((resolve name).on (net.serveAll calls)).1 = ((resolve name).on net).1 := by
  have hcoherent : net.Coherent := (Reachable.built hbuilt).coherent
  cases hfind : net.find? name with
  | some id => exact hcoherent.resolve_serveAll_of_find? hfind calls
  | none =>
      have hcalls : ∀ position, .intern name position ∉ calls := by
        refine hname.resolve_left fun hmentioned => ?_
        have hknown := ((realizes_ofSchematic hbuilt).mentioned name).mpr hmentioned
        simp [hfind] at hknown
      have hfind' := hcoherent.find?_serveAll hcalls hfind
      rw [on_resolve_of_find?_eq_none hfind, on_resolve_of_find?_eq_none hfind']

/-- Calls that fail on the cycle of `tangle`, or that compute `y`, or that add the wire `v`,
change nothing for `z`, which is mentioned, and for `u`, which is not. -/
theorem tangle_resolve_serveAll :
    ∃ net calls, ofSchematic tangle = .ok net ∧
      calls = [.resolve "z", .intern "v" ⟨9, 1⟩, .resolveAll .byName, .resolveWires ["y", "u"]] ∧
      ((resolve "z").on (net.serveAll calls)).1 = .error (.cyclic "x" ["x", "w", "x"] ⟨1, 6⟩) ∧
      ((resolve "u").on (net.serveAll calls)).1 = .error (.undefined "u" none) := by
  have hbuilt : ofSchematic tangle = .ok ((ofSchematic tangle).toOption.getD empty) := rfl
  refine ⟨_, _, hbuilt, rfl, ?_, ?_⟩
  · have hmentioned : ∃ statement ∈ tangle.statements, ∃ mention ∈ statement.mentions,
        mention.name = "z" := by decide +kernel
    exact (resolve_serveAll_eq hbuilt _ (.inl hmentioned)).trans rfl
  · exact (resolve_serveAll_eq hbuilt _ (.inr (by simp))).trans rfl

end Netlist

end BitwiseCircuit
