import BitwiseCircuit.Proofs.Netlist.Extension
import BitwiseCircuit.Proofs.Resolution.Report

/-!
# What every netlist in use has in common

Whatever calls a netlist has served, its table, its index, its words and its counter fit
together, and later calls never take back or change what it says about a wire.

Main results:

- Definition `Netlist.serveAll` serves a list of calls.
- Definition `Netlist.Consistent` is how the parts of a netlist fit together; Theorem
  `Netlist.Coherent.consistent` gets it from the invariant of the calls.
- Theorem `Netlist.Reachable.consistent_serveAll`: a reachable netlist is consistent, and
  any calls only extend it.
-/

namespace BitwiseCircuit

namespace Netlist

variable {net : Netlist} {id : WireId} {value : Word} {name : String}

/-! ## Parts that fit together -/

/-- The gate that drives the wire with a given number. -/
def gate? (net : Netlist) (id : WireId) : Option (Gate WireId) :=
  (net.driver? id).map (·.gate)

/-- Where the wire with a given number is assigned. -/
def assignedAt? (net : Netlist) (id : WireId) : Option Position :=
  (net.driver? id).map (·.position)

/-- The parts of a netlist fit together: names are different and are found under the
numbers of their wires and no others; gates read wires of the table; a wire is assigned
somewhere if a gate drives it; a word is known only along with the words that its gate
reads, and is what the gate makes of these; and the counter is the number of known
words. -/
structure Consistent (net : Netlist) : Prop where
  nodup_names : (net.wires.toList.map (·.name)).Nodup
  find?_iff : ∀ name id, net.find? name = some id ↔ net.IsNamed id name
  operand_lt : ∀ id gate, net.gate? id = some gate → ∀ x ∈ gate.wires, x < net.size
  assigned_iff : ∀ id, (net.assignedAt? id).isSome ↔ (net.gate? id).isSome
  computed : ∀ id value, net.value? id = some value → ∃ gate, net.gate? id = some gate ∧
    (∀ x ∈ gate.wires, (net.value? x).isSome) ∧ gate.apply net.read? = some value
  evaluations_eq : net.evaluations = net.settled.card

private theorem exists_driver_of_gate? {gate : Gate WireId} (h : net.gate? id = some gate) :
    ∃ driver, net.driver? id = some driver ∧ driver.gate = gate :=
  Option.map_eq_some_iff.mp h

/-- A word that is kept is what the gate of its wire computes from the words kept. -/
theorem Coherent.exists_gate (h : net.Coherent) (hvalue : net.value? id = some value) :
    ∃ gate, net.gate? id = some gate ∧ (∀ x ∈ gate.wires, (net.value? x).isSome) ∧
      gate.apply net.read? = some value := by
  cases h.denotes id value hvalue with
  | @gate _ driver word hdriver _ =>
      have hoperands : ∀ x ∈ driver.gate.wires, (net.value? x).isSome := fun x hx =>
        h.closed id x (by simp [hvalue]) ⟨driver, hdriver, hx⟩
      rcases h.exists_apply hdriver hoperands with ⟨value', happly, hdenotes⟩
      obtain rfl := hdenotes.unique (h.denotes id _ hvalue)
      exact ⟨driver.gate, by simp [gate?, hdriver], hoperands, happly⟩

/-- A coherent netlist is consistent. -/
theorem Coherent.consistent (h : net.Coherent) : net.Consistent where
  nodup_names := by
    have hnames := h.nodup_names_listing .byMention
    rw [listing, List.map_map] at hnames
    rw [← List.zipIdx_map_fst 0 net.wires.toList, List.map_map]
    exact hnames
  find?_iff := h.find?_iff
  operand_lt id gate hgate x hx := by
    rcases exists_driver_of_gate? hgate with ⟨driver, hdriver, rfl⟩
    exact h.operand_lt id x ⟨driver, hdriver, hx⟩
  assigned_iff id := by simp [assignedAt?, gate?]
  computed _ _ hvalue := h.exists_gate hvalue
  evaluations_eq := h.evaluations_eq

/-! ## Calls one after another -/

/-- The netlist that some calls leave, one after another. -/
def serveAll (net : Netlist) (calls : List Call) : Netlist :=
  calls.foldl serve net

@[simp]
theorem serveAll_nil (net : Netlist) : net.serveAll [] = net :=
  rfl

@[simp]
theorem serveAll_cons (net : Netlist) (call : Call) (calls : List Call) :
    net.serveAll (call :: calls) = (net.serve call).serveAll calls :=
  rfl

/-- Calls keep a netlist coherent, those that fail included. -/
theorem Coherent.serveAll (h : net.Coherent) (calls : List Call) :
    (net.serveAll calls).Coherent := by
  induction calls generalizing net with
  | nil => exact h
  | cons call calls ih =>
      rw [serveAll_cons]
      exact ih (h.serve call)

/-- A call looks up a name that may be new, or it only adds words. -/
theorem Coherent.intern_or_grows (h : net.Coherent) (call : Call) :
    (∃ name position, call = .intern name position) ∨ net.Grows (net.serve call) := by
  cases call with
  | intern name position => exact .inl ⟨name, position, rfl⟩
  | resolve name => exact .inr (h.after_resolve name).1
  | resolveId id => exact .inr (h.after_resolveId id).1
  | resolveAll order => exact .inr (h.after_resolveAll order).1
  | resolveWires names => exact .inr (h.after_resolveWires names).1

/-- A call only extends a netlist, whether it fails or not. -/
theorem Coherent.extends_serve (h : net.Coherent) (call : Call) : net.Extends (net.serve call) := by
  rcases h.intern_or_grows call with ⟨name, position, rfl⟩ | hgrows
  · exact extends_intern net name position
  · exact hgrows.extends

/-- Calls extend a coherent netlist. -/
theorem Coherent.extends_serveAll (h : net.Coherent) (calls : List Call) :
    net.Extends (net.serveAll calls) := by
  induction calls generalizing net with
  | nil => exact .refl net
  | cons call calls ih =>
      rw [serveAll_cons]
      exact (h.extends_serve call).trans (ih (h.serve call))

/-- The parts of a reachable netlist fit together, and whatever calls it serves from then
on, its wires keep their numbers, names, first mentions and drivers, and the words that
they have. -/
theorem Reachable.consistent_serveAll (h : net.Reachable) :
    net.Consistent ∧ ∀ calls, net.Extends (net.serveAll calls) :=
  ⟨h.coherent.consistent, h.coherent.extends_serveAll⟩

/-- In `tangled` only `y` has its word, and it keeps it whatever is looked up or resolved. -/
theorem tangled_consistent_serveAll :
    tangled.Reachable ∧ tangled.Consistent ∧ tangled.settled = {2} ∧
      (tangled.serveAll [.intern "v" ⟨9, 1⟩, .resolveAll .byName]).value? 2 = some 5 := by
  have h := reachable_tangled.consistent_serveAll
  have hvalue : tangled.value? 2 = some 5 := rfl
  exact ⟨reachable_tangled, h.1, by decide +kernel, (h.2 _).value 2 5 hvalue⟩

end Netlist

end BitwiseCircuit
