import BitwiseCircuit.Proofs.Gate.Mapping
import BitwiseCircuit.Proofs.Netlist.Construction
import BitwiseCircuit.Proofs.Schematic.Places

/-!
# Netlists without places

A netlist keeps where each wire is first mentioned and where it is assigned, and a second
assignment is noticed by the presence of the latter.  What place it is plays no role: the
netlist of a schematic without places is the netlist of the schematic without its places.

Main results:

- Definitions `Netlist.unplaced` and `WireFault.unplaced` forget places.
- Theorem `Netlist.forgets_mapWires`: looking up the wires of a gate commutes with
  forgetting.
- Theorem `Netlist.ofSchematic_unplaced`: so does building a netlist.
-/

namespace BitwiseCircuit

/-- The fault without the places where wires and literals stand; a wire that is mentioned
nowhere stays distinguished. -/
def WireFault.unplaced : WireFault → WireFault
  | undefined name position => undefined name (position.map fun _ => .first)
  | reassigned name _ _ => reassigned name .first .first
  | cyclic name cycle _ => cyclic name cycle .first
  | literalOutOfRange spelling _ => literalOutOfRange spelling .first

/-- The driver without the place of its statement. -/
def Driver.unplaced (driver : Driver) : Driver :=
  { driver with position := .first }

/-- The wire without the places where it is first mentioned and assigned. -/
def Wire.unplaced (wire : Wire) : Wire :=
  { wire with firstSeen := .first, driver := wire.driver.map Driver.unplaced }

/-- The gate of an expression does not depend on places, nor does the fault of its literal. -/
theorem Expression.toGate_unplaced (expression : Expression) :
    expression.unplaced.toGate =
      mapBoth WireFault.unplaced (Gate.map Mention.unplaced) expression.toGate := by
  have hword : ∀ numeral : Numeral, numeral.unplaced.toWord =
      mapBoth WireFault.unplaced (fun word => word) numeral.toWord := by
    intro numeral
    rw [Numeral.toWord, Numeral.toWord]
    cases hvalue : Word.ofDecimal? numeral.spelling <;> simp only [Numeral.unplaced, hvalue] <;> rfl
  cases expression with
  | literal value =>
      simp only [unplaced, toGate, hword]
      cases value.toWord <;> rfl
  | shift op operand amount =>
      simp only [unplaced, toGate, hword]
      cases amount.toWord <;> rfl
  | _ => rfl

namespace Netlist

variable {net : Netlist} {id : WireId}

/-- The netlist without the places of its wires. -/
def unplaced (net : Netlist) : Netlist :=
  { net with wires := net.wires.map Wire.unplaced }

@[simp]
theorem size_unplaced (net : Netlist) : net.unplaced.size = net.size :=
  Array.size_map

@[simp]
theorem find?_unplaced (net : Netlist) (name : String) : net.unplaced.find? name = net.find? name :=
  rfl

@[simp]
theorem wire?_unplaced (net : Netlist) (id : WireId) :
    net.unplaced.wire? id = (net.wire? id).map Wire.unplaced :=
  Array.getElem?_map

@[simp]
theorem driver?_unplaced (net : Netlist) (id : WireId) :
    net.unplaced.driver? id = (net.driver? id).map Driver.unplaced := by
  rw [driver?, driver?, wire?_unplaced]
  cases net.wire? id <;> rfl

/-- The names of the wires are listed as before. -/
theorem names_listing_unplaced (net : Netlist) (order : Order) :
    (net.unplaced.listing order).map Prod.fst = (net.listing order).map Prod.fst := by
  cases order with
  | byName => rfl
  | byMention => simp [listing, unplaced, List.zipIdx_map, Wire.unplaced]

/-! ## Adding wires and drivers -/

/-- A lookup commutes with forgetting places. -/
theorem intern_unplaced (net : Netlist) (name : String) (position : Position) :
    net.unplaced.intern name .first =
      ((net.intern name position).1, (net.intern name position).2.unplaced) := by
  cases hfind : net.find? name with
  | some id => simp [intern, hfind]
  | none =>
      have hpush : net.unplaced.wires.push ⟨name, .first, none, none⟩ =
          (net.wires.push ⟨name, position, none, none⟩).map Wire.unplaced := by
        rw [Array.map_push]
        rfl
      simp only [intern, find?_unplaced, hfind, hpush, size_unplaced]
      rfl

/-- Driving a wire commutes with forgetting places. -/
theorem drive_unplaced (net : Netlist) (id : WireId) (driver : Driver) :
    net.unplaced.drive id driver.unplaced = (net.drive id driver).unplaced := by
  have hwires : (net.unplaced.drive id driver.unplaced).wires =
      (net.drive id driver).unplaced.wires := by
    refine Array.ext_getElem? fun x => ?_
    change (net.unplaced.drive id driver.unplaced).wire? x = (net.drive id driver).unplaced.wire? x
    rw [wire?_drive, wire?_unplaced, wire?_unplaced, wire?_drive]
    split
    · cases net.wire? x <;> rfl
    · rfl
  exact congrArg (Netlist.mk · net.index net.evaluations) hwires

/-- The computation `act'` does without places what `act` does with places. -/
def Forgets {α : Type} (act act' : StateM Netlist α) : Prop :=
  ∀ net, act'.run net.unplaced = ((act.run net).1, (act.run net).2.unplaced)

/-- Looking up the wires of a gate commutes with forgetting places. -/
theorem forgets_mapWires (gate : Gate Mention) :
    Forgets (gate.mapWires internMention) ((gate.map Mention.unplaced).mapWires internMention) := by
  have htracks : Tracks (fun net net' : Netlist => net' = net.unplaced)
      (gate.mapWires internMention) ((gate.map Mention.unplaced).mapWires internMention) := by
    refine Gate.tracks_mapWires (fun mention => ?_) gate
    rintro net _ rfl
    have hintern : (internMention mention.unplaced).run net.unplaced =
        (((internMention mention).run net).1, ((internMention mention).run net).2.unplaced) :=
      net.intern_unplaced mention.name mention.position
    rw [hintern]
    exact ⟨rfl, rfl⟩
  intro net
  rcases htracks net net.unplaced rfl with ⟨hresult, hstate⟩
  exact Prod.ext hresult hstate

/-! ## Statements -/

/-- Adding a statement commutes with forgetting places. -/
theorem assign_unplaced (net : Netlist) (statement : Statement) :
    net.unplaced.assign statement.unplaced =
      mapBoth WireFault.unplaced unplaced (net.assign statement) := by
  have hintern := net.intern_unplaced statement.result.name statement.result.position
  rcases hresult : net.intern statement.result.name statement.result.position with ⟨id, interned⟩
  rw [hresult] at hintern
  simp only [Netlist.assign, Statement.unplaced, Mention.unplaced, hintern, hresult,
    driver?_unplaced, Expression.toGate_unplaced]
  cases hdriver : interned.driver? id with
  | some driver => rfl
  | none =>
      cases hgate : statement.expression.toGate with
      | error fault => rfl
      | ok gate =>
          have hmap := forgets_mapWires gate interned
          rcases hrun : (gate.mapWires internMention).run interned with ⟨numbered, later⟩
          rw [hrun] at hmap
          have hdrive := later.drive_unplaced id ⟨numbered, statement.result.position⟩
          simp only [mapBoth_ok, Option.map_none, bind, Except.bind, hmap, hrun]
          exact congrArg Except.ok hdrive

/-- Building a netlist commutes with forgetting places. -/
theorem ofSchematic_unplaced (schematic : Schematic) :
    ofSchematic schematic.unplaced =
      mapBoth WireFault.unplaced unplaced (ofSchematic schematic) := by
  have hempty : empty.unplaced = empty := by simp [unplaced, empty]
  have hfold := foldlM_mapBoth assign_unplaced schematic.statements empty
  rwa [hempty] at hfold

end Netlist

end BitwiseCircuit
