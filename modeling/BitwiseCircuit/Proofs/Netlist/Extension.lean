import BitwiseCircuit.Proofs.Netlist.Construction

/-!
# Netlists that contain another one

A netlist in use only grows: words are computed, and wires are added that nothing drives.
Every wire that was there keeps its number, its name, its first mention and its driver.

Main results:

- Definition `Netlist.Embeds` compares two netlists on the wires of the first one, their
  words aside; Definition `Netlist.Extends` adds that names and words are kept.
- Theorem `Netlist.Embeds.denotes`: the words that the first wiring gives, the second one
  gives too.
-/

namespace BitwiseCircuit

namespace Netlist

variable {net net' net'' : Netlist} {id : WireId} {value : Word} {name : String}

/-! ## The same wires -/

/-- The wires of `net` are wires of `net'` under the same numbers.  Which words are known
may be different, and `net'` may have more wires. -/
def Embeds (net net' : Netlist) : Prop :=
  ∀ id wire, net.wire? id = some wire → ∃ value, net'.wire? id = some { wire with value }

namespace Embeds

/-- Embedding is reflexive. -/
theorem refl (net : Netlist) : net.Embeds net := fun _ wire hwire => ⟨wire.value, hwire⟩

/-- Embedding is transitive. -/
theorem trans (h : net.Embeds net') (h' : net'.Embeds net'') : net.Embeds net'' := by
  intro id wire hwire
  rcases h id wire hwire with ⟨value, hwire'⟩
  exact h' id { wire with value } hwire'

/-- A wire keeps its driver. -/
theorem driver?_eq (h : net.Embeds net') (hlt : id < net.size) :
    net'.driver? id = net.driver? id := by
  rcases exists_wire_of_lt hlt with ⟨wire, hwire⟩
  rcases h id wire hwire with ⟨value, hwire'⟩
  rw [driver?_of_wire? hwire', driver?_of_wire? hwire]

/-- A wire keeps its name. -/
theorem nameOf_eq (h : net.Embeds net') (hlt : id < net.size) :
    net'.nameOf id = net.nameOf id := by
  rcases exists_wire_of_lt hlt with ⟨wire, hwire⟩
  rcases h id wire hwire with ⟨value, hwire'⟩
  simp [nameOf, hwire, hwire']

/-- A word that the wiring of the first netlist gives, the wiring of the second one gives
too. -/
theorem denotes (h : net.Embeds net') (hdenotes : net.Denotes id value) :
    net'.Denotes id value := by
  refine hdenotes.mono fun x driver hdriver => ?_
  rw [h.driver?_eq (lt_size_of_driver? hdriver), hdriver]

end Embeds

/-- Netlists with the same wiring embed in each other. -/
theorem SameWiring.embeds (h : net.SameWiring net') : net.Embeds net' := fun _ _ hwire =>
  h.exists_wire hwire

/-- A netlist embeds in what a lookup makes of it. -/
theorem embeds_intern (net : Netlist) (name : String) (position : Position) :
    net.Embeds (net.intern name position).2 := by
  intro id wire hwire
  refine ⟨wire.value, ?_⟩
  rw [wire?_intern_of_lt name position (lt_size_of_wire? hwire), hwire]

/-! ## What a netlist may become -/

/-- The netlist `net'` has the wires of `net`, finds their names under the same numbers,
and keeps the words that are known in `net`. -/
structure Extends (net net' : Netlist) : Prop where
  embeds : net.Embeds net'
  finds : net.FindsAll net'
  value : ∀ id value, net.value? id = some value → net'.value? id = some value

/-- Extension is reflexive. -/
theorem Extends.refl (net : Netlist) : net.Extends net :=
  ⟨.refl net, fun _ _ hfind => hfind, fun _ _ hvalue => hvalue⟩

/-- Extension is transitive. -/
theorem Extends.trans (h : net.Extends net') (h' : net'.Extends net'') : net.Extends net'' :=
  ⟨h.embeds.trans h'.embeds, h.finds.trans h'.finds,
    fun id value hvalue => h'.value id value (h.value id value hvalue)⟩

/-- A netlist that grows is extended. -/
theorem Grows.extends (h : net.Grows net') : net.Extends net' where
  embeds := h.wiring.embeds
  finds name id hfind := by rw [← h.wiring.find?_eq, hfind]
  value := h.value

/-- A lookup that may add a wire extends the netlist. -/
theorem extends_intern (net : Netlist) (name : String) (position : Position) :
    net.Extends (net.intern name position).2 where
  embeds := embeds_intern net name position
  finds := findsAll_intern net name position
  value id value hvalue := by rw [value?_intern, hvalue]

end Netlist

end BitwiseCircuit
